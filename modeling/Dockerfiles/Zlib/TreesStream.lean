import Dockerfiles.Zlib.PuffBuffers
import Dockerfiles.Zlib.TreesDynamic

/-! # Streams of blocks

Blocks of any kind, one after the other, are read back by `puff` as the data they stand
for, whatever bits are left over between them.
-/

namespace Trees

open Zlib (Bytef)
open Puff (State Result)
open Bits (lsb ofBytes)

/-! ## Blocks -/

/-- What is sent between two fillings of the buffers: a block of one of the three kinds,
or the empty block of `_tr_align`. -/
inductive Block where
  | stored (buf : List Bytef)
  | static (tallied : List Tally)
  | dynamic (tallied : List Tally) (ltree dtree blTree : Tree) (lcodes dcodes blcodes : Nat)
  | align

/-- A block is sent, from the bytes and matches as they were tallied. -/
def Block.send (last : Bool) : Block → Out → Out
  | .stored buf, s => trStoredBlock buf last s
  | .static tallied, s => sendTallied tallied staticLtree staticDtree (sendHeader 1 last s)
  | .dynamic tallied ltree dtree blTree lcodes dcodes blcodes, s =>
      sendTallied tallied ltree dtree
        (sendAllTrees ltree dtree blTree lcodes dcodes blcodes (sendHeader 2 last s))
  | .align, s => trAlign s

/-- Behind `out`, the block stands for how the data goes on to `out'`. -/
inductive Block.Means (last : Bool) : List Bytef → Block → List Bytef → Prop
  | stored {out buf : List Bytef} (hbuf : buf.length < 2 ^ 16) :
      Means last out (.stored buf) (out ++ buf)
  | static {out out' : List Bytef} {tallied : List Tally} (h : Tells out tallied out') :
      Means last out (.static tallied) out'
  | dynamic {out out' : List Bytef} {tallied : List Tally} {ltree dtree blTree : Tree}
      {ll dl bls : List Nat} {blcodes : Nat} (h : Tells out tallied out')
      (hheader : Header ll dl bls blcodes) (hl : Coded ltree ll) (hd : Coded dtree dl)
      (hbl : Coded blTree bls) (hll : ll = ltree.dl.take ll.length)
      (hdl : dl = dtree.dl.take dl.length) (hhas : ∀ t ∈ tallied, t.Has ll dl) :
      Means last out (.dynamic tallied ltree dtree blTree ll.length dl.length blcodes) out'
  | align {out : List Bytef} (hlast : last = false) : Means last out .align out

theorem Block.Means.length_le {last : Bool} {out out' : List Bytef} {b : Block}
    (h : b.Means last out out') : out.length ≤ out'.length := by
  cases h with
  | stored hbuf =>
      rw [List.length_append]
      omega
  | static h => exact h.length_le
  | dynamic h => exact h.length_le
  | align hlast => exact Nat.le_refl _

/-- What a block adds to the output is what `puff` reads as the block. The bits behind it
end with a byte, since a stored block starts with one. -/
theorem Block.Means.transfers {last : Bool} {out out' : List Bytef} {b : Block}
    (h : b.Means last out out') {w : Out} (hw : w.Valid) :
    ∃ type u, type < 2 ^ 2 ∧ Sent w (headerBits type last ++ u) (b.send last w) ∧
      ∀ {n : Nat} {s : State} {more : List Bool}, Ready n s → s.out = out → out'.length ≤ n →
        s.rest = u ++ more → ((b.send last w).sent.length + more.length) % 8 = 0 →
        ∃ s', Puff.blockOf true type s = .ok () s' ∧ Reads n s u out' s' := by
  cases h with
  | @stored buf hbuf =>
      have hheader := sendHeader_sent hw (show 0 < 4 by decide) last
      obtain ⟨pad, hpad, haligned, hsent⟩ := copyBlock_sent hheader.valid hbuf
      refine ⟨0, _, by decide, hheader.trans hsent, ?_⟩
      intro n s more hs hout hroom hrest hmod
      have hmore : more.length % 8 = 0 := by
        have hlength : ((Block.stored buf).send last w).sent.length =
            ((sendHeader 0 last w).sent ++ pad).length +
              8 * (lengthBytes buf.length ++ buf).length := by
          show (copyBlock buf (sendHeader 0 last w)).sent.length = _
          rw [hsent.sent, ← List.append_assoc, List.length_append, Bits.length_ofBytes]
        omega
      rw [List.append_assoc] at hrest
      rw [List.length_append, ← hout] at hroom
      rw [← hout]
      exact stored_reads hs hbuf hpad hmore hroom hrest
  | @static out' tallied h =>
      have hheader := sendHeader_sent hw (show 1 < 4 by decide) last
      have hsent := sendTallied_sent staticLtree_coded staticDtree_coded
        (fun t ht => ⟨h.valid t ht, hasStatic (h.valid t ht)⟩) (len_staticLengths (by decide))
        hheader.valid
      refine ⟨1, _, by decide, hheader.trans hsent, ?_⟩
      intro n s more hs hout hroom hrest hmod
      exact fixed_reads hs (hout ▸ h) hroom hrest
  | @dynamic out' tallied ltree dtree blTree ll dl bls blcodes h hh hl hd hbl hll hdl hhas =>
      have hheader := sendHeader_sent hw (show 2 < 4 by decide) last
      have htrees := sendAllTrees_sent hh hll hdl hbl hheader.valid
      have hsent := sendTallied_sent hl hd (fun t ht => ⟨h.valid t ht, hhas t ht⟩) hh.has_end
        htrees.valid
      refine ⟨2, _, by decide, hheader.trans (htrees.trans hsent), ?_⟩
      intro n s more hs hout hroom hrest hmod
      exact dynamic_reads hh hs (hout ▸ h) hhas hroom hrest
  | @align hlast =>
      subst hlast
      have hheader := sendHeader_sent hw (show 1 < 4 by decide) false
      have hend := staticLtree_coded.sendCode_sent (len_staticLengths (show 256 < 288 by decide))
        hheader.valid
      have hflush := biFlush_sent hend.valid
      have hsent := hheader.trans (hend.trans hflush)
      rw [List.append_nil] at hsent
      refine ⟨1, _, by decide, hsent, ?_⟩
      intro n s more hs hout hroom hrest hmod
      exact @fixed_reads n s hs out [] (hout ▸ Tells.nil out) hroom more hrest

/-! ## Streams -/

/-- A block that is not the last one is sent, or, when there is none, `_tr_flush_bits`
empties the buffer as far as it goes. -/
def sendNext (s : Out) : Option Block → Out
  | some b => b.send false s
  | none => biFlush s

/-- The blocks, and at last `final`, stand for how the data goes on. -/
inductive Delivers : List Bytef → List (Option Block) → Block → List Bytef → Prop
  | final {out out' : List Bytef} {final : Block} (h : final.Means true out out') :
      Delivers out [] final out'
  | block {out out' out'' : List Bytef} {b final : Block} {blocks : List (Option Block)}
      (h : b.Means false out out') (h' : Delivers out' blocks final out'') :
      Delivers out (some b :: blocks) final out''
  | flush {out out' : List Bytef} {final : Block} {blocks : List (Option Block)}
      (h : Delivers out blocks final out') : Delivers out (none :: blocks) final out'

/-- The output after the last block, which is filled up to a byte. -/
def sendAll (blocks : List (Option Block)) (final : Block) (s : Out) : Out :=
  biWindup (final.send true (blocks.foldl sendNext s))

theorem sendAll_cons (b : Option Block) (blocks : List (Option Block)) (final : Block) (s : Out) :
    sendAll (b :: blocks) final s = sendAll blocks final (sendNext s b) := rfl

/-- The output of a new stream, as `_tr_init` leaves it. -/
def trInit : Out where
  pending := []
  biBuf := 0
  biValid := 0

def deflated (blocks : List (Option Block)) (final : Block) : List Bytef :=
  (sendAll blocks final trInit).pending

theorem Delivers.length_le {out out' : List Bytef} {blocks : List (Option Block)} {final : Block}
    (h : Delivers out blocks final out') : out.length ≤ out'.length := by
  induction h with
  | final h => exact h.length_le
  | block h h' ih => exact h.length_le.trans ih
  | flush h ih => exact ih

theorem Delivers.sendAll_sent {out out' : List Bytef} {blocks : List (Option Block)} {final : Block}
    (h : Delivers out blocks final out') {w : Out} (hw : w.Valid) :
    ∃ v, Sent w v (sendAll blocks final w) := by
  induction h generalizing w with
  | final h =>
      obtain ⟨type, u, -, hblock, -⟩ := h.transfers hw
      obtain ⟨pad, -, hwindup, -⟩ := biWindup_sent hblock.valid
      exact ⟨_, hblock.trans hwindup⟩
  | block h h' ih =>
      obtain ⟨type, u, -, hblock, -⟩ := h.transfers hw
      obtain ⟨v, hmore⟩ := ih hblock.valid
      exact ⟨_, hblock.trans hmore⟩
  | flush h ih =>
      have hflush := biFlush_sent hw
      obtain ⟨v, hmore⟩ := ih hflush.valid
      exact ⟨_, hflush.trans hmore⟩

/-- The header of a block and the block are read in one round of the loop. -/
theorem blockLoop_block {type : Nat} (htype : type < 2 ^ 2) {last : Bool} {n : Nat} {s : State}
    (hs : Ready n s) {u more : List Bool} {out' : List Bytef}
    (hrest : s.rest = headerBits type last ++ (u ++ more))
    (hblock : ∀ t : State, Ready n t → t.out = s.out → t.rest = u ++ more →
      ∃ t', Puff.blockOf true type t = .ok () t' ∧ Reads n t u out' t') (k : Nat) :
    ∃ s', Reads n s (headerBits type last ++ u) out' s' ∧
      Puff.blockLoop true (k + 1) s =
        if last then .ok () s' else Puff.blockLoop true k s' := by
  have hlast : last.toNat < 2 ^ 1 := Nat.lt_succ_of_le (Bool.toNat_le last)
  rw [headerBits, List.append_assoc] at hrest
  obtain ⟨s1, hbit, h1⟩ := hs.bits hlast hrest
  obtain ⟨s2, hbits, h2⟩ := h1.ready.bits htype (h1.rest hrest)
  obtain ⟨s3, hof, h3⟩ := hblock s2 h2.ready (h2.out.trans h1.out) (h2.rest (h1.rest hrest))
  refine ⟨s3, (h1.trans h2).trans h3, ?_⟩
  rw [Puff.blockLoop, Program.bind_ok hbit, Program.bind_ok hbits, Program.bind_ok hof]
  cases last <;> rfl

/-- The loop over blocks reads what was sent. -/
theorem blockLoop_delivers {out out' : List Bytef} {blocks : List (Option Block)} {final : Block}
    (h : Delivers out blocks final out') {w : Out} (hw : w.Valid) {n : Nat}
    (hroom : out'.length ≤ n) {s : State} (hs : Ready n s) (hout : s.out = out)
    (hsent : (sendAll blocks final w).sent = w.sent ++ s.rest)
    (hbytes : (w.sent.length + s.rest.length) % 8 = 0) {k : Nat} (hk : s.rest.length < k) :
    ∃ s' u, Puff.blockLoop true k s = .ok () s' ∧ Reads n s u out' s' ∧ s'.rest.length < 8 := by
  induction h generalizing w s k with
  | @final out out' final h =>
      obtain ⟨k, rfl⟩ : ∃ j, k = j + 1 := ⟨k - 1, by omega⟩
      obtain ⟨type, u, htype, hblock, hread⟩ := h.transfers hw
      obtain ⟨pad, hpad, hwindup, -⟩ := biWindup_sent hblock.valid
      have hrest : s.rest = headerBits type true ++ (u ++ pad) := by
        have hall := (hblock.trans hwindup).sent
        rw [← List.append_assoc]
        exact (List.append_cancel_left (hsent.symm.trans hall))
      have hmod : ((final.send true w).sent.length + pad.length) % 8 = 0 := by
        rw [hrest] at hbytes
        rw [hblock.sent]
        simpa [Nat.add_assoc] using hbytes
      obtain ⟨s', hs', hloop⟩ := blockLoop_block htype hs hrest
        (fun t ht htout htrest => hread ht (htout.trans hout) hroom htrest hmod) k
      rw [← List.append_assoc] at hrest
      exact ⟨s', _, hloop, hs', by rw [hs'.rest hrest]; exact hpad⟩
  | @block out out1 out' b final blocks h h' ih =>
      obtain ⟨k, rfl⟩ : ∃ j, k = j + 1 := ⟨k - 1, by omega⟩
      obtain ⟨type, u, htype, hblock, hread⟩ := h.transfers hw
      obtain ⟨more, hmore⟩ := h'.sendAll_sent hblock.valid
      have hrest : s.rest = headerBits type false ++ (u ++ more) := by
        have hall := (hblock.trans hmore).sent
        rw [← List.append_assoc]
        exact List.append_cancel_left (hsent.symm.trans hall)
      have hmod : ((b.send false w).sent.length + more.length) % 8 = 0 := by
        rw [hrest] at hbytes
        rw [hblock.sent]
        simpa [Nat.add_assoc] using hbytes
      obtain ⟨t, ht, hloop⟩ := blockLoop_block htype hs hrest
        (fun t ht htout htrest =>
          hread ht (htout.trans hout) (h'.length_le.trans hroom) htrest hmod) k
      have hlength := congrArg List.length hrest
      rw [← List.append_assoc] at hrest
      have htrest := ht.rest hrest
      have hheader : (headerBits type false).length = 3 := rfl
      simp only [List.length_append, hheader] at hlength
      obtain ⟨s', v, hloop', hs', hleft⟩ := @ih _ hblock.valid hroom t ht.ready ht.out
        (by rw [htrest]; exact hmore.sent) (by rw [htrest]; exact hmod) k (by rw [htrest]; omega)
      refine ⟨s', _, ?_, ht.trans hs', hleft⟩
      rw [hloop]
      exact hloop'
  | flush h ih =>
      -- no bit is added, so that the reader stays where it is
      have hflush := biFlush_sent hw
      have hsame : (biFlush w).sent = w.sent := hflush.sent.trans (List.append_nil _)
      exact ih hflush.valid hroom hs hout (by rw [hsame]; exact hsent) (by rw [hsame]; exact hbytes)
        hk

/-- `puff` reads a stream of blocks as the data they stand for, and reads all of it. -/
theorem puff_deflated {blocks : List (Option Block)} {final : Block} {data : List Bytef}
    (h : Delivers [] blocks final data) {n : Nat} (hroom : data.length ≤ n) (slow : Bool) :
    Puff.puff slow (some n) (deflated blocks final) =
      { err := 0, out := data, lengths := some (data.length, (deflated blocks final).length) } := by
  have hinit : trInit.Valid := ⟨Nat.zero_le 16, Nat.zero_lt_one⟩
  have hs : Ready n (Puff.start (some n) (deflated blocks final)) :=
    ⟨⟨Nat.zero_lt_succ 7, Nat.zero_lt_one⟩, rfl, rfl⟩
  have hend : (sendAll blocks final trInit).sent = ofBytes (deflated blocks final) :=
    List.append_nil _
  have hstart : (Puff.start (some n) (deflated blocks final)).rest =
      ofBytes (deflated blocks final) := rfl
  obtain ⟨s', u, hloop, hs', hleft⟩ := blockLoop_delivers h hinit hroom hs rfl
    (k := (Puff.start (some n) (deflated blocks final)).left + 1) (hend.trans hstart.symm)
    (by rw [hstart, Bits.length_ofBytes]; exact Nat.mod_eq_zero_of_dvd ⟨_, Nat.zero_add _⟩)
    (by rw [State.length_rest]; exact Nat.lt_succ_self _)
  have hinput : s'.input.length = 0 := by
    rw [State.length_rest, State.left] at hleft
    omega
  have hincnt : s'.incnt = (deflated blocks final).length := by
    have htotal := hs'.total
    rw [hinput, Nat.add_zero] at htotal
    exact htotal.trans (Nat.zero_add _)
  rw [Puff.puff, Puff.finish_inflate, Puff.inflate, hloop, Puff.finish, hs'.ready.outcnt, hs'.out,
    hincnt]

end Trees
