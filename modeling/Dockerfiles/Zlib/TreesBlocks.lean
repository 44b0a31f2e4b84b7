import Dockerfiles.Zlib.TreesTally

/-! # Stored and static blocks

What `_tr_stored_block` and a block with the static trees send, and that `puff` reads it
back.
-/

namespace Trees

open Zlib (Bytef)
open Puff (entry State)
open Canonical (IsCode len)
open Bits (lsb ofBytes)

/-! ## Headers -/

def headerBits (type : Nat) (last : Bool) : List Bool := lsb 1 last.toNat ++ lsb 2 type

theorem sendHeader_sent {s : Out} (hs : s.Valid) {type : Nat} (htype : type < 4) (last : Bool) :
    Sent s (headerBits type last) (sendHeader type last s) := by
  have hlast : last.toNat < 2 ^ 1 := Nat.lt_succ_of_le (Bool.toNat_le last)
  have hvalue : (type <<< 1) + last.toNat = last.toNat + 2 ^ 1 * type := by
    rw [Nat.shiftLeft_eq, Nat.add_comm, Nat.mul_comm]
  rw [sendHeader, hvalue, headerBits, ← Bits.lsb_add hlast 2 type]
  exact sendBits_sent hs (by decide) (Bits.add_lt hlast htype)

/-! ## Stored blocks -/

def lengthBytes (k : Nat) : List Bytef :=
  [BitVec.ofNat 8 k, BitVec.ofNat 8 (k / 2 ^ 8), BitVec.ofNat 8 (2 ^ 16 - 1 - k),
    BitVec.ofNat 8 ((2 ^ 16 - 1 - k) / 2 ^ 8)]

theorem foldl_putByte (buf : List Bytef) (s : Out) :
    buf.foldl (fun s b => putByte b.toNat s) s = { s with pending := s.pending ++ buf } := by
  induction buf generalizing s with
  | nil => rw [List.foldl_nil, List.append_nil]
  | cons b buf ih =>
      rw [List.foldl_cons, ih, putByte, BitVec.ofNat_toNat, BitVec.setWidth_eq, List.append_assoc,
        List.singleton_append]

theorem putShort_eq (w : Nat) (hw : w < 2 ^ 16) (s : Out) :
    putShort w s =
      { s with pending := s.pending ++ [BitVec.ofNat 8 w, BitVec.ofNat 8 (w / 2 ^ 8)] } := by
  have hlow : BitVec.ofNat 8 (w &&& 0xff) = BitVec.ofNat 8 w := by
    apply BitVec.eq_of_toNat_eq
    rw [BitVec.toNat_ofNat, BitVec.toNat_ofNat, show (0xff : Nat) = 2 ^ 8 - 1 from rfl,
      Nat.and_two_pow_sub_one_eq_mod, Nat.mod_mod]
  rw [putShort, Nat.mod_eq_of_lt hw, Nat.shiftRight_eq_div_pow, putByte, putByte, hlow,
    List.append_assoc, List.singleton_append]

/-- What a stored block adds to the output. -/
theorem copyBlock_sent {s : Out} (hs : s.Valid) {buf : List Bytef} (hbuf : buf.length < 2 ^ 16) :
    ∃ pad, pad.length < 8 ∧ (s.sent ++ pad).length % 8 = 0 ∧
      Sent s (pad ++ ofBytes (lengthBytes buf.length ++ buf)) (copyBlock buf s) := by
  obtain ⟨pad, hpad, hsent, hzero⟩ := biWindup_sent hs
  have haligned : (biWindup s).sent = ofBytes (biWindup s).pending := by
    rw [Out.sent, hzero]
    exact List.append_nil _
  have hcomplement : (2 ^ 32 - 1 - buf.length % 2 ^ 32) % 2 ^ 16 = 2 ^ 16 - 1 - buf.length := by
    omega
  have hpending : copyBlock buf s =
      { biWindup s with
        pending := (biWindup s).pending ++ (lengthBytes buf.length ++ buf) } := by
    rw [copyBlock, Nat.mod_eq_of_lt hbuf, hcomplement, putShort_eq _ hbuf,
      putShort_eq _ (by omega), foldl_putByte]
    simp only [lengthBytes, List.append_assoc, List.cons_append, List.nil_append]
  refine ⟨pad, hpad, ?_, ?_⟩
  · rw [← hsent.sent, haligned, Bits.length_ofBytes]
    omega
  · rw [hpending]
    refine ⟨⟨hsent.valid.1, hsent.valid.2⟩, ?_⟩
    show ofBytes (_ ++ _) ++ lsb (biWindup s).biValid (biWindup s).biBuf = _
    rw [hzero, Bits.ofBytes_append, ← haligned, hsent.sent, List.append_assoc, List.append_assoc]
    exact congrArg _ (congrArg _ (List.append_nil _))

/-- The length is read back from its bytes. -/
theorem storedLength_bytes {k : Nat} (hk : k < 2 ^ 16) {s : State} {input : List Bytef}
    (hinput : s.input = lengthBytes k ++ input) :
    Puff.storedLength s = .ok k { s with input, incnt := s.incnt + 4 } := by
  have hlen : (k % 2 ^ 8 ||| ((k / 2 ^ 8 % 2 ^ 8) <<< 8)) = k := by
    rw [Bits.or_shiftLeft (Nat.mod_lt k (by decide))]
    omega
  have hlow : (2 ^ 16 - 1 - k) % 2 ^ 8 = (2 ^ 32 - 1 - k) &&& 0xff := by
    rw [show (0xff : Nat) = 2 ^ 8 - 1 from rfl, Nat.and_two_pow_sub_one_eq_mod]
    omega
  have hhigh : (2 ^ 16 - 1 - k) / 2 ^ 8 % 2 ^ 8 = ((2 ^ 32 - 1 - k) >>> 8) &&& 0xff := by
    rw [show (0xff : Nat) = 2 ^ 8 - 1 from rfl, Nat.and_two_pow_sub_one_eq_mod,
      Nat.shiftRight_eq_div_pow]
    omega
  rw [Puff.storedLength, hinput, lengthBytes]
  simp only [List.cons_append, List.nil_append, BitVec.toNat_ofNat]
  rw [hlen, hlow, hhigh, if_neg (not_not.mpr rfl), if_neg (not_not.mpr rfl)]

/-- At the end of a byte, bytes follow. -/
theorem input_of_rest {s : State} {pad more : List Bool} {bytes : List Bytef}
    (hs : s.Valid) (hpad : pad.length < 8) (hmore : more.length % 8 = 0)
    (hrest : s.rest = pad ++ (ofBytes bytes ++ more)) :
    ∃ input, s.input = bytes ++ input ∧ ofBytes input = more := by
  have hlt := hs.bitcnt_lt
  have hlength := congrArg List.length hrest
  rw [State.length_rest, State.left, List.length_append, List.length_append,
    Bits.length_ofBytes] at hlength
  rw [State.rest] at hrest
  obtain ⟨-, hbytes⟩ := List.append_inj hrest (by rw [Bits.length_lsb]; omega)
  have hsplit : ofBytes (s.input.take bytes.length) ++ ofBytes (s.input.drop bytes.length) =
      ofBytes bytes ++ more := by
    rw [← Bits.ofBytes_append, List.take_append_drop, hbytes]
  obtain ⟨htake, hdrop⟩ := List.append_inj hsplit (by
    rw [Bits.length_ofBytes, Bits.length_ofBytes, List.length_take]
    omega)
  have hbytes' := List.take_append_drop bytes.length s.input
  rw [Bits.ofBytes_injective htake] at hbytes'
  exact ⟨s.input.drop bytes.length, hbytes'.symm, hdrop⟩

theorem store_bytes {n : Nat} {t : State} (ht : Ready n t) {buf input : List Bytef}
    (hinput : t.input = buf ++ input) (hroom : t.out.length + buf.length ≤ n) :
    Puff.store buf.length t =
      .ok () { t with
        out := t.out ++ buf
        outcnt := t.outcnt + buf.length
        input
        incnt := t.incnt + buf.length } := by
  have htake : t.input.take buf.length = buf := by rw [hinput, List.take_left]
  have hdrop : t.input.drop buf.length = input := by rw [hinput, List.drop_left]
  have hput := ht.put_eq (· ++ t.input.take buf.length) hroom
  have hle : ¬ t.input.length < buf.length := by
    rw [hinput, List.length_append]
    omega
  rw [Puff.store, if_neg hle, Program.bind_ok hput]
  dsimp only [Puff.skip]
  rw [htake, hdrop]

/-- A stored block is read back. -/
theorem stored_reads {n : Nat} {s : State} (hs : Ready n s) {pad more : List Bool}
    {buf : List Bytef} (hbuf : buf.length < 2 ^ 16) (hpad : pad.length < 8)
    (hmore : more.length % 8 = 0) (hroom : s.out.length + buf.length ≤ n)
    (hrest : s.rest = pad ++ (ofBytes (lengthBytes buf.length ++ buf) ++ more)) :
    ∃ s', Puff.stored s = .ok () s' ∧
      Reads n s (pad ++ ofBytes (lengthBytes buf.length ++ buf)) (s.out ++ buf) s' := by
  obtain ⟨input, hinput, hinmore⟩ := input_of_rest hs.valid hpad hmore hrest
  rw [List.append_assoc] at hinput
  have hlength := congrArg List.length hinput
  rw [List.length_append, List.length_append] at hlength
  have halign : Puff.align s = .ok () { s with bitbuf := 0, bitcnt := 0 } := rfl
  have hlen := @storedLength_bytes buf.length hbuf { s with bitbuf := 0, bitcnt := 0 }
    (buf ++ input) hinput
  have hstore := @store_bytes n
    { s with bitbuf := 0, bitcnt := 0, input := buf ++ input, incnt := s.incnt + 4 }
    ⟨⟨Nat.zero_lt_succ 7, Nat.zero_lt_one⟩, hs.room, hs.outcnt⟩ buf input rfl hroom
  let s' : State :=
    { s with
      out := s.out ++ buf
      outcnt := s.outcnt + buf.length
      input
      incnt := s.incnt + 4 + buf.length
      bitbuf := 0
      bitcnt := 0 }
  refine ⟨s', ?_, ⟨⟨⟨Nat.zero_lt_succ 7, Nat.zero_lt_one⟩, hs.room, ?_⟩, ?_, rfl, ?_⟩⟩
  · rw [Puff.stored, Program.bind_ok halign, Program.bind_ok hlen]
    exact hstore
  · show s.outcnt + buf.length = (s.out ++ buf).length
    rw [List.length_append, hs.outcnt]
  · show s.rest = _ ++ (lsb 0 0 ++ ofBytes input)
    rw [hrest, hinmore, List.append_assoc]
    rfl
  · have hfour : (lengthBytes buf.length).length = 4 := rfl
    show s.incnt + 4 + buf.length + input.length = s.incnt + s.input.length
    omega

/-! ## Static blocks -/

/-- The lengths of the static trees. -/
theorem fixed_eq :
    Puff.fixed true =
      Puff.codes true (Puff.construct staticLengths).1 (Puff.construct (List.replicate 30 5)).1 :=
  rfl

theorem hasStatic {t : Tally} (ht : t.Valid) : t.Has staticLengths (List.replicate 30 5) := by
  have hlc := ht.lc_lt
  have hdist := ht.dist_le
  rw [Tally.Has]
  split
  · exact len_staticLengths (by omega)
  · obtain ⟨hcode, -⟩ := lengthCode_spec hlc
    obtain ⟨hdcode, -⟩ := dCode_spec (show t.dist - 1 < 32768 by omega)
    refine ⟨len_staticLengths (by omega), ?_⟩
    rw [len_replicate_five hdcode]
    decide

theorem Tells.valid {out out' : List Bytef} {tallied : List Tally} (h : Tells out tallied out') :
    ∀ t ∈ tallied, t.Valid := by
  induction h with
  | nil out =>
      intro t ht
      cases ht
  | byte b h ih =>
      intro t ht
      rcases List.mem_cons.mp ht with rfl | ht
      · exact ⟨b.isLt, Nat.zero_le _⟩
      · exact ih t ht
  | found hfound hdist hlc hlength h ih =>
      intro t ht
      rcases List.mem_cons.mp ht with rfl | ht
      · exact ⟨hlc, hdist⟩
      · exact ih t ht

/-- The data of a block with the static trees is read back. -/
theorem fixed_reads {n : Nat} {s : State} (hs : Ready n s) {out' : List Bytef}
    {tallied : List Tally} (htells : Tells s.out tallied out') (hroom : out'.length ≤ n)
    {more : List Bool}
    (hrest : s.rest = dataBits staticLengths (List.replicate 30 5) tallied ++ more) :
    ∃ s', Puff.fixed true s = .ok () s' ∧
      Reads n s (dataBits staticLengths (List.replicate 30 5) tallied) out' s' := by
  rw [fixed_eq]
  exact codes_reads staticLtree_coded.isCode staticDtree_coded.isCode
    (len_staticLengths (by decide)) htells (fun t ht => hasStatic (htells.valid t ht)) hroom hs hrest

end Trees
