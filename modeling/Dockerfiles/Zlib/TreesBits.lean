import Dockerfiles.Zlib.Trees

/-! # What `trees.c` writes

The bits that were sent so far, and what each function that sends adds to them.
-/

namespace Trees

open Zlib (Bytef)
open Puff (entry)
open Bits (lsb msb value ofBytes)

/-! ## The bits that were sent -/

/-- No more bits are kept than fit, and nothing above them. -/
structure Out.Valid (s : Out) : Prop where
  biValid_le : s.biValid ≤ 16
  biBuf_lt : s.biBuf < 2 ^ s.biValid

def Out.sent (s : Out) : List Bool := ofBytes s.pending ++ lsb s.biValid s.biBuf

/-- `s'` is `s` after the bits `u` were sent. -/
structure Sent (s : Out) (u : List Bool) (s' : Out) : Prop where
  valid : s'.Valid
  sent : s'.sent = s.sent ++ u

theorem Sent.refl {s : Out} (h : s.Valid) : Sent s [] s where
  valid := h
  sent := (List.append_nil s.sent).symm

theorem Sent.trans {s t r : Out} {u v : List Bool} (h : Sent s u t) (h' : Sent t v r) :
    Sent s (u ++ v) r where
  valid := h'.valid
  sent := by rw [h'.sent, h.sent, List.append_assoc]

theorem ofBytes_byte (c : Nat) : ofBytes [BitVec.ofNat 8 c] = lsb 8 c := by
  rw [Bits.ofBytes_cons, Bits.ofBytes_nil, List.append_nil, BitVec.toNat_ofNat,
    Bits.lsb_mod (Nat.le_refl 8)]

theorem putByte_pending (c : Nat) (s : Out) :
    ofBytes (putByte c s).pending = ofBytes s.pending ++ lsb 8 c := by
  rw [putByte, Bits.ofBytes_append, ofBytes_byte]

theorem putShort_pending (w : Nat) (s : Out) :
    ofBytes (putShort w s).pending = ofBytes s.pending ++ lsb 16 w := by
  have hlow : lsb 8 (w &&& 0xff) = lsb 8 w := by
    rw [show (0xff : Nat) = 2 ^ 8 - 1 from rfl, Nat.and_two_pow_sub_one_eq_mod,
      Bits.lsb_mod (Nat.le_refl 8)]
  have hhigh : lsb 8 ((w % 2 ^ 16) >>> 8) = lsb 8 (w / 2 ^ 8) := by
    rw [Nat.shiftRight_eq_div_pow, show (2 ^ 16 : Nat) = 2 ^ 8 * 2 ^ 8 from rfl,
      Nat.mod_mul_right_div_self, Bits.lsb_mod (Nat.le_refl 8)]
  rw [putShort, putByte_pending, putByte_pending, hlow, hhigh, List.append_assoc,
    ← Bits.lsb_append 8 8 w]

/-- `send_bits` sends the bits of a value, the lowest first. -/
theorem sendBits_sent {s : Out} (hs : s.Valid) {v length : Nat} (hlen : length ≤ 16)
    (hv : v < 2 ^ length) : Sent s (lsb length v) (sendBits v length s) := by
  have hle := hs.biValid_le
  have hlt := hs.biBuf_lt
  have hv16 : v % 2 ^ 16 = v :=
    Nat.mod_eq_of_lt (Nat.lt_of_lt_of_le hv (Nat.pow_le_pow_right Nat.two_pos hlen))
  have hall := Bits.lsb_add hlt length v
  rw [sendBits, hv16, Bits.or_shiftLeft hlt]
  dsimp only
  split
  · next hfull =>
      -- what does not fit the buffer is what is above sixteen bits
      have hover : (s.biBuf + 2 ^ s.biValid * v) / 2 ^ 16 = v / 2 ^ (16 - s.biValid) := by
        rw [show (16 : Nat) = s.biValid + (16 - s.biValid) by omega, Nat.pow_add,
          ← Nat.div_div_eq_div_mul, Nat.add_mul_div_left _ _ (Nat.two_pow_pos s.biValid),
          Nat.div_eq_of_lt hlt, Nat.zero_add, Nat.add_sub_cancel_left]
      have hsplit := Bits.lsb_append 16 (s.biValid + length - 16) (s.biBuf + 2 ^ s.biValid * v)
      rw [show 16 + (s.biValid + length - 16) = s.biValid + length by rw [bufSize] at hfull; omega,
        hall, hover] at hsplit
      refine ⟨⟨?_, ?_⟩, ?_⟩
      · show s.biValid + length - 16 ≤ 16
        omega
      · show v >>> (16 - s.biValid) < 2 ^ (s.biValid + length - 16)
        rw [Nat.shiftRight_eq_div_pow]
        refine Nat.div_lt_of_lt_mul ?_
        rw [← Nat.pow_add]
        exact Nat.lt_of_lt_of_le hv (Nat.pow_le_pow_right Nat.two_pos (by omega))
      · show ofBytes (putShort _ s).pending ++
          lsb (s.biValid + length - 16) (v >>> (16 - s.biValid)) = _
        rw [putShort_pending, Bits.lsb_mod (Nat.le_refl 16), Nat.shiftRight_eq_div_pow, Out.sent,
          List.append_assoc, List.append_assoc, ← hsplit]
  · next hroom =>
      have hsum : s.biBuf + 2 ^ s.biValid * v < 2 ^ 16 :=
        Nat.lt_of_lt_of_le (Bits.add_lt hlt hv)
          (Nat.pow_le_pow_right Nat.two_pos (by rw [bufSize] at hroom; omega))
      rw [Nat.mod_eq_of_lt hsum]
      refine ⟨⟨?_, Bits.add_lt hlt hv⟩, ?_⟩
      · show s.biValid + length ≤ 16
        rw [bufSize] at hroom
        omega
      · show ofBytes s.pending ++ lsb (s.biValid + length) _ = _
        rw [hall, Out.sent, List.append_assoc]

/-! ## Alignment -/

theorem biFlush_sent {s : Out} (hs : s.Valid) : Sent s [] (biFlush s) := by
  have hle := hs.biValid_le
  have hlt := hs.biBuf_lt
  rw [biFlush]
  split
  · next hfull =>
      refine ⟨⟨Nat.zero_le 16, Nat.zero_lt_one⟩, ?_⟩
      show ofBytes (putShort s.biBuf s).pending ++ [] = _
      rw [putShort_pending, Out.sent, hfull]
  · split
    · next hbyte =>
        have hpow : 2 ^ s.biValid = 2 ^ 8 * 2 ^ (s.biValid - 8) := by
          rw [← Nat.pow_add, show 8 + (s.biValid - 8) = s.biValid by omega]
        have hsplit := Bits.lsb_append 8 (s.biValid - 8) s.biBuf
        rw [show 8 + (s.biValid - 8) = s.biValid by omega] at hsplit
        refine ⟨⟨?_, ?_⟩, ?_⟩
        · show s.biValid - 8 ≤ 16
          omega
        · show s.biBuf >>> 8 < 2 ^ (s.biValid - 8)
          rw [Nat.shiftRight_eq_div_pow]
          exact Nat.div_lt_of_lt_mul (hpow ▸ hlt)
        · show ofBytes (putByte s.biBuf s).pending ++ lsb (s.biValid - 8) (s.biBuf >>> 8) = _
          rw [putByte_pending, Nat.shiftRight_eq_div_pow, List.append_assoc, ← hsplit,
            List.append_nil, Out.sent]
    · exact Sent.refl hs

/-- A number with zeros above it. -/
theorem lsb_pad {m v : Nat} (h : v < 2 ^ m) (n : Nat) : lsb (m + n) v = lsb m v ++ lsb n 0 := by
  have := Bits.lsb_add h n 0
  rwa [Nat.mul_zero, Nat.add_zero] at this

/-- `bi_windup` fills up the last byte. -/
theorem biWindup_sent {s : Out} (hs : s.Valid) :
    ∃ pad, pad.length < 8 ∧ Sent s pad (biWindup s) ∧ (biWindup s).biValid = 0 := by
  have hle := hs.biValid_le
  have hzero : ∀ t : Out, ({ t with biBuf := 0, biValid := 0 } : Out).Valid :=
    fun t => ⟨Nat.zero_le 16, Nat.zero_lt_one⟩
  rw [biWindup]
  dsimp only
  split
  · next hlong =>
      refine ⟨lsb (16 - s.biValid) 0, ?_, ⟨hzero _, ?_⟩, rfl⟩
      · rw [Bits.length_lsb]
        omega
      · show ofBytes (putShort s.biBuf s).pending ++ [] = _
        rw [putShort_pending, List.append_nil, Out.sent, List.append_assoc,
          ← lsb_pad hs.biBuf_lt, show s.biValid + (16 - s.biValid) = 16 by omega]
  · split
    · next hshort hpos =>
        refine ⟨lsb (8 - s.biValid) 0, ?_, ⟨hzero _, ?_⟩, rfl⟩
        · rw [Bits.length_lsb]
          omega
        · show ofBytes (putByte s.biBuf s).pending ++ [] = _
          rw [putByte_pending, List.append_nil, Out.sent, List.append_assoc,
            ← lsb_pad hs.biBuf_lt, show s.biValid + (8 - s.biValid) = 8 by omega]
    · next hnone =>
        refine ⟨[], Nat.zero_lt_succ 7, ⟨hzero _, ?_⟩, rfl⟩
        show ofBytes s.pending ++ [] = s.sent ++ []
        rw [Out.sent, show s.biValid = 0 by omega]
        simp [lsb]

/-! ## Codes -/

theorem biReverseLoop_eq (k code : Nat) {res : Nat} (hres : res % 2 = 0) :
    biReverseLoop k code res = res * 2 ^ k + 2 * value (msb k code) := by
  induction k generalizing code res with
  | zero => simp [biReverseLoop, msb, value]
  | succ k ih =>
      have hor : res ||| (code &&& 1) = res + code % 2 := by
        have hlt : code % 2 < 2 ^ 1 := Nat.mod_lt code Nat.two_pos
        have h := Nat.two_pow_add_eq_or_of_lt hlt (res / 2)
        rw [Nat.and_one_is_mod, show res = 2 ^ 1 * (res / 2) by omega, ← h]
      rw [biReverseLoop, hor, Nat.shiftLeft_eq, Nat.pow_one, Nat.shiftRight_one,
        ih (code / 2) (by omega), Bits.msb_succ, Bits.value_append, Bits.length_msb, value, value,
        Bits.toNat_decide_mod, Nat.pow_succ]
      ring

/-- The bits of a code are sent from the highest on. -/
theorem lsb_biReverse {len : Nat} (hlen : 1 ≤ len) (code : Nat) :
    biReverse code len < 2 ^ len ∧ lsb len (biReverse code len) = msb len code := by
  have hvalue : biReverse code len = value (msb len code) := by
    rw [biReverse, Nat.max_eq_left hlen, biReverseLoop_eq len code rfl, Nat.zero_mul, Nat.zero_add,
      Nat.shiftRight_one, Nat.mul_div_cancel_left _ Nat.two_pos]
  have hlt := Bits.value_lt (msb len code)
  have hlsb := Bits.lsb_value (msb len code)
  rw [Bits.length_msb] at hlt hlsb
  rw [hvalue]
  exact ⟨hlt, hlsb⟩

end Trees
