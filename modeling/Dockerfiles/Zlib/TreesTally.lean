import Dockerfiles.Zlib.TreesStatic

/-! # Bytes and matches

The bytes and matches that `_tr_tally` collects tell what the data is; what
`compress_block` sends for them, `codes` of `puff` reads as that data.
-/

namespace Trees

open Zlib (Bytef)
open Puff (entry State Took)
open Canonical (IsCode len word)
open Bits (lsb msb)

/-! ## What they tell -/

/-- The data goes on with `found`, which is what stands `dist` bytes before it. -/
structure Found (dist : Nat) (out found : List Bytef) : Prop where
  pos : 1 ≤ dist
  back : dist ≤ out.length
  eq : ∀ i, i < found.length →
    (out ++ found)[out.length + i]? = (out ++ found)[out.length + i - dist]?

/-- Behind `out`, the bytes and matches tell how the data goes on to `out'`. -/
inductive Tells : List Bytef → List Tally → List Bytef → Prop
  | nil (out : List Bytef) : Tells out [] out
  | byte {out out' : List Bytef} {rest : List Tally} (b : Bytef)
      (h : Tells (out ++ [b]) rest out') : Tells out ({ dist := 0, lc := b.toNat } :: rest) out'
  | found {out found out' : List Bytef} {rest : List Tally} {dist lc : Nat}
      (hfound : Found dist out found) (hdist : dist ≤ 32768) (hlc : lc < 256)
      (hlength : found.length = lc + 3) (h : Tells (out ++ found) rest out') :
      Tells out ({ dist, lc } :: rest) out'

/-- Copying byte by byte makes what was found. -/
theorem copyLoop_found {dist : Nat} {out found : List Bytef} (h : Found dist out found) :
    Puff.copyLoop dist found.length out = out ++ found := by
  induction found generalizing out with
  | nil => exact (List.append_nil out).symm
  | cons b found ih =>
      have hback := h.back
      have hpos := h.pos
      have hhead : out.getD (out.length - dist) 0 = b := by
        have h0 := h.eq 0 (Nat.succ_pos _)
        rw [Nat.add_zero, List.getElem?_append_right (Nat.le_refl _), Nat.sub_self,
          List.getElem?_append_left (by omega)] at h0
        rw [List.getD_eq_getElem?_getD, ← h0]
        rfl
      have hrest : Found dist (out ++ [b]) found := by
        refine ⟨hpos, by rw [List.length_append]; omega, ?_⟩
        intro i hi
        have hnext := h.eq (i + 1) (Nat.succ_lt_succ hi)
        rw [List.append_assoc, List.singleton_append, List.length_append, List.length_singleton]
        rw [show out.length + 1 + i = out.length + (i + 1) by omega]
        exact hnext
      rw [List.length_cons, Puff.copyLoop, hhead, ih hrest, List.append_assoc,
        List.singleton_append]

/-! ## What is sent -/

/-- The symbols of a byte or match have words. -/
def Tally.Has (ll dl : List Nat) (t : Tally) : Prop :=
  if t.dist = 0 then len ll t.lc ≠ 0
  else len ll (entry lengthCode t.lc + 256 + 1) ≠ 0 ∧ len dl (dCode (t.dist - 1)) ≠ 0

def tallyBits (ll dl : List Nat) (t : Tally) : List Bool :=
  if t.dist = 0 then codeBits ll t.lc
  else
    codeBits ll (entry lengthCode t.lc + 256 + 1) ++
      (lsb (entry extraLbits (entry lengthCode t.lc)) (lengthRest t.lc) ++
        (codeBits dl (dCode (t.dist - 1)) ++
          lsb (entry extraDbits (dCode (t.dist - 1)))
            (t.dist - 1 - entry baseDist (dCode (t.dist - 1)))))

theorem sendExtra_sent {s : Out} (hs : s.Valid) {v extra : Nat} (hextra : extra ≤ 16)
    (hv : v < 2 ^ extra) : Sent s (lsb extra v) (sendExtra v extra s) := by
  rw [sendExtra]
  split
  · exact sendBits_sent hs hextra hv
  · next hzero =>
      rw [not_not] at hzero
      rw [hzero]
      exact Sent.refl hs

/-- A byte, or a match within the bounds of the format. -/
structure Tally.Valid (t : Tally) : Prop where
  lc_lt : t.lc < 256
  dist_le : t.dist ≤ 32768

theorem extraLbits_le : ∀ code, code < 29 → entry extraLbits code ≤ 16 := by decide

theorem sendLength_sent {s : Out} (hs : s.Valid) {lc : Nat} (hlc : lc < 256) :
    Sent s (lsb (entry extraLbits (entry lengthCode lc)) (lengthRest lc))
      (sendExtra (lc - entry baseLength (entry lengthCode lc))
        (entry extraLbits (entry lengthCode lc)) s) := by
  obtain ⟨hcode, hrest, -⟩ := lengthCode_spec hlc
  by_cases hzero : entry extraLbits (entry lengthCode lc) = 0
  · rw [sendExtra, hzero, if_neg (not_not.mpr rfl)]
    exact Sent.refl hs
  · have hsame : lengthRest lc = lc - entry baseLength (entry lengthCode lc) := if_neg hzero
    rw [← hsame]
    exact sendExtra_sent hs (extraLbits_le _ hcode) hrest

section Sent

variable {ltree dtree : Tree} {ll dl : List Nat}

theorem compressTally_sent (hl : Coded ltree ll) (hd : Coded dtree dl) {t : Tally}
    (ht : t.Valid) (hhas : t.Has ll dl) {s : Out} (hs : s.Valid) :
    Sent s (tallyBits ll dl t) (compressTally ltree dtree s t) := by
  rw [compressTally, tallyBits]
  rw [Tally.Has] at hhas
  by_cases hzero : t.dist = 0
  · rw [if_pos hzero] at hhas ⊢
    rw [if_pos hzero]
    exact hl.sendCode_sent hhas hs
  · rw [if_neg hzero] at hhas ⊢
    rw [if_neg hzero]
    have hdist := ht.dist_le
    obtain ⟨hdcode, hge, hlt⟩ := dCode_spec (show t.dist - 1 < 32768 by omega)
    have hextra := (dists_baseDist _ hdcode).1
    have h1 := hl.sendCode_sent hhas.1 hs
    have h2 := sendLength_sent h1.valid ht.lc_lt
    have h3 := hd.sendCode_sent hhas.2 h2.valid
    have h4 := sendExtra_sent h3.valid (show entry extraDbits (dCode (t.dist - 1)) ≤ 16 by omega)
      (show t.dist - 1 - entry baseDist (dCode (t.dist - 1)) <
        2 ^ entry extraDbits (dCode (t.dist - 1)) by omega)
    exact h1.trans (h2.trans (h3.trans h4))

theorem foldl_compressTally_sent (hl : Coded ltree ll) (hd : Coded dtree dl)
    {tallied : List Tally} (h : ∀ t ∈ tallied, t.Valid ∧ t.Has ll dl) {s : Out} (hs : s.Valid) :
    Sent s (tallied.flatMap (tallyBits ll dl)) (tallied.foldl (compressTally ltree dtree) s) := by
  induction tallied generalizing s with
  | nil => exact Sent.refl hs
  | cons t tallied ih =>
      obtain ⟨ht, hhas⟩ := h t List.mem_cons_self
      have hone := compressTally_sent hl hd ht hhas hs
      rw [List.flatMap_cons, List.foldl_cons]
      exact hone.trans (ih (fun x hx => h x (List.mem_cons_of_mem t hx)) hone.valid)

def dataBits (ll dl : List Nat) (tallied : List Tally) : List Bool :=
  tallied.flatMap (tallyBits ll dl) ++ codeBits ll 256

theorem sendTallied_sent (hl : Coded ltree ll) (hd : Coded dtree dl) {tallied : List Tally}
    (h : ∀ t ∈ tallied, t.Valid ∧ t.Has ll dl) (hend : len ll 256 ≠ 0) {s : Out} (hs : s.Valid) :
    Sent s (dataBits ll dl tallied) (sendTallied tallied ltree dtree s) := by
  have hall := foldl_compressTally_sent hl hd h hs
  exact hall.trans (hl.sendCode_sent hend hall.valid)

end Sent

/-! ## What is read -/

/-- `puff` is between two of its functions, and there is room for `n` bytes. -/
structure Ready (n : Nat) (s : State) : Prop where
  valid : s.Valid
  room : s.room = some n
  outcnt : s.outcnt = s.out.length

/-- `puff` has read the bits `u`, and the output is now `out`. -/
structure Reads (n : Nat) (s : State) (u : List Bool) (out : List Bytef) (s' : State) : Prop where
  ready : Ready n s'
  stream : s.rest = u ++ s'.rest
  out : s'.out = out
  total : s'.incnt + s'.input.length = s.incnt + s.input.length

theorem Reads.trans {n : Nat} {s t r : State} {u v : List Bool} {out out' : List Bytef}
    (h : Reads n s u out t) (h' : Reads n t v out' r) : Reads n s (u ++ v) out' r where
  ready := h'.ready
  stream := by rw [h.stream, h'.stream, List.append_assoc]
  out := h'.out
  total := h'.total.trans h.total

theorem Ready.took {n : Nat} {s s' : State} {u : List Bool} (hs : Ready n s) (h : Took s u s') :
    Reads n s u s.out s' where
  ready := ⟨h.valid, h.room.trans hs.room, by rw [h.outcnt, h.out, hs.outcnt]⟩
  stream := h.stream
  out := h.out
  total := h.total

/-- What is left to read after the bits `u`. -/
theorem Reads.rest {n : Nat} {s s' : State} {u more : List Bool} {out : List Bytef}
    (h : Reads n s u out s') (hrest : s.rest = u ++ more) : s'.rest = more := by
  have hstream := h.stream
  rw [hrest] at hstream
  exact (List.append_cancel_left hstream).symm

section Reads

variable {n : Nat} {s : State} (hs : Ready n s)

include hs

theorem Ready.bits {need v : Nat} (hv : v < 2 ^ need) {more : List Bool}
    (hrest : s.rest = lsb need v ++ more) :
    ∃ s', Puff.bits need s = .ok v s' ∧ Reads n s (lsb need v) s.out s' := by
  obtain ⟨s', hbits, htook⟩ := Puff.bits_lsb hs.valid hv hrest
  exact ⟨s', hbits, hs.took htook⟩

theorem Ready.decode {lens : List Nat} (hcode : IsCode lens Puff.maxbits) {symbol : Nat}
    (hsymbol : len lens symbol ≠ 0) {more : List Bool}
    (hrest : s.rest = codeBits lens symbol ++ more) :
    ∃ s', Puff.decode true (Puff.construct lens).1 s = .ok symbol s' ∧
      Reads n s (codeBits lens symbol) s.out s' := by
  obtain ⟨s', hdecode, htook⟩ := Puff.decodeSlow_word hcode hsymbol hs.valid hrest
  exact ⟨s', hdecode, hs.took htook⟩

theorem Ready.put_eq {k : Nat} (bytes : List Bytef → List Bytef) (hroom : s.out.length + k ≤ n) :
    Puff.put k bytes s = .ok () { s with out := bytes s.out, outcnt := s.outcnt + k } := by
  have hcnt := hs.outcnt
  have hroom' := hs.room
  obtain ⟨out, room, outcnt, input, incnt, bitbuf, bitcnt⟩ := s
  dsimp only at hcnt hroom hroom'
  subst hroom'
  have hfull : ¬ n < outcnt + k := by omega
  exact if_neg hfull

theorem Ready.put {k : Nat} {bytes : List Bytef → List Bytef} (hroom : s.out.length + k ≤ n)
    (hlength : (bytes s.out).length = s.out.length + k) :
    ∃ s', Puff.put k bytes s = .ok () s' ∧ Reads n s [] (bytes s.out) s' := by
  refine ⟨_, hs.put_eq bytes hroom, ⟨⟨hs.valid.1, hs.valid.2⟩, hs.room, ?_⟩, rfl, rfl, rfl⟩
  show s.outcnt + k = (bytes s.out).length
  rw [hlength, hs.outcnt]

theorem Ready.literal (b : Bytef) (hroom : s.out.length + 1 ≤ n) :
    ∃ s', Puff.literal b.toNat s = .ok () s' ∧ Reads n s [] (s.out ++ [b]) s' := by
  obtain ⟨s', hput, hreads⟩ := @Ready.put n s hs 1 (· ++ [b]) hroom List.length_append
  refine ⟨s', ?_, hreads⟩
  have hcnt := hs.outcnt
  rw [Puff.put, hs.room] at hput
  rw [Puff.literal, hs.room]
  dsimp only at hput ⊢
  rw [if_neg (by omega)] at hput
  rw [if_neg (by omega), BitVec.ofNat_toNat]
  exact hput

theorem Ready.copy {dist : Nat} {found : List Bytef} (hfound : Found dist s.out found)
    (hroom : s.out.length + found.length ≤ n) :
    ∃ s', Puff.copy found.length dist s = .ok () s' ∧ Reads n s [] (s.out ++ found) s' := by
  obtain ⟨s', hput, hreads⟩ := @Ready.put n s hs found.length
    (Puff.copyLoop dist found.length) hroom
    (by rw [copyLoop_found hfound, List.length_append])
  have hback := hfound.back
  rw [copyLoop_found hfound] at hreads
  refine ⟨s', ?_, hreads⟩
  rw [Puff.copy, if_neg (by rw [hs.outcnt]; omega)]
  exact hput

/-- A byte is read as a literal. -/
theorem Ready.codesRound_byte {ll : List Nat} (hl : IsCode ll Puff.maxbits)
    (distcode : Puff.Huffman) (b : Bytef) (hb : len ll b.toNat ≠ 0) (hroom : s.out.length + 1 ≤ n) {more : List Bool}
    (hrest : s.rest = codeBits ll b.toNat ++ more) :
    ∃ s', Puff.codesRound true (Puff.construct ll).1 distcode s = .ok true s' ∧
      Reads n s (codeBits ll b.toNat) (s.out ++ [b]) s' := by
  obtain ⟨t, hdecode, ht⟩ := hs.decode hl hb hrest
  obtain ⟨s', hliteral, hs'⟩ := ht.ready.literal b (by rw [ht.out]; exact hroom)
  rw [ht.out] at hs'
  refine ⟨s', ?_, by simpa using ht.trans hs'⟩
  rw [Puff.codesRound, Program.bind_ok hdecode, if_pos b.isLt, Program.bind_ok hliteral]
  rfl

/-- A match is read as a length and a distance. -/
theorem Ready.codesRound_found {ll dl : List Nat} (hl : IsCode ll Puff.maxbits)
    (hd : IsCode dl Puff.maxbits) {dist lc : Nat} {found : List Bytef}
    (hfound : Found dist s.out found) (hdist : dist ≤ 32768) (hlc : lc < 256)
    (hlength : found.length = lc + 3) (hhas : Tally.Has ll dl { dist, lc })
    (hroom : s.out.length + found.length ≤ n) {more : List Bool}
    (hrest : s.rest = tallyBits ll dl { dist, lc } ++ more) :
    ∃ s', Puff.codesRound true (Puff.construct ll).1 (Puff.construct dl).1 s = .ok true s' ∧
      Reads n s (tallyBits ll dl { dist, lc }) (s.out ++ found) s' := by
  have hpos := hfound.pos
  have hzero : ¬ dist = 0 := by omega
  obtain ⟨hcode, hlrest, hlens⟩ := lengthCode_spec hlc
  obtain ⟨hdcode, hge, hlt⟩ := dCode_spec (show dist - 1 < 32768 by omega)
  obtain ⟨-, hdists⟩ := dists_baseDist _ hdcode
  rw [Tally.Has, if_neg hzero] at hhas
  rw [tallyBits, if_neg hzero] at hrest ⊢
  dsimp only at hhas hrest ⊢
  simp only [List.append_assoc] at hrest
  obtain ⟨s1, hdecode, h1⟩ := hs.decode hl hhas.1 hrest
  obtain ⟨s2, hextra, h2⟩ := h1.ready.bits hlrest (h1.rest hrest)
  obtain ⟨s3, hdist', h3⟩ := h2.ready.decode hd hhas.2 (h2.rest (h1.rest hrest))
  have hrest3 := h3.rest (h2.rest (h1.rest hrest))
  obtain ⟨s4, hmore, h4⟩ := h3.ready.bits (show dist - 1 - entry baseDist (dCode (dist - 1)) <
    2 ^ entry extraDbits (dCode (dist - 1)) by omega) hrest3
  have hout4 : s4.out = s.out := by rw [h4.out, h3.out, h2.out, h1.out]
  obtain ⟨s5, hcopy, h5⟩ := h4.ready.copy (hout4 ▸ hfound) (by rw [hout4]; exact hroom)
  rw [hout4] at h5
  refine ⟨s5, ?_, by simpa using h1.trans (h2.trans (h3.trans (h4.trans h5)))⟩
  -- the symbol of the length, less 257, is its code
  have hsymbol : entry lengthCode lc + 256 + 1 - 257 = entry lengthCode lc := by omega
  have hlen : entry Puff.lens (entry lengthCode lc) + lengthRest lc = found.length := by omega
  have hback : entry Puff.dists (dCode (dist - 1)) +
      (dist - 1 - entry baseDist (dCode (dist - 1))) = dist := by omega
  have hpair : Puff.lengthPair true (Puff.construct dl).1 (entry lengthCode lc) s1 = .ok () s5 := by
    rw [Puff.lengthPair, if_neg (by omega)]
    refine (Program.bind_ok hextra).trans ?_
    refine (Program.bind_ok hdist').trans ?_
    refine (Program.bind_ok hmore).trans ?_
    rw [hlen, hback]
    exact hcopy
  rw [Puff.codesRound, Program.bind_ok hdecode, if_neg (by omega), if_pos (by omega), hsymbol,
    Program.bind_ok hpair]
  rfl

/-- The end of a block is read. -/
theorem Ready.codesRound_end {ll : List Nat} (hl : IsCode ll Puff.maxbits) (distcode : Puff.Huffman)
    (hend : len ll 256 ≠ 0) {more : List Bool} (hrest : s.rest = codeBits ll 256 ++ more) :
    ∃ s', Puff.codesRound true (Puff.construct ll).1 distcode s = .ok false s' ∧
      Reads n s (codeBits ll 256) s.out s' := by
  obtain ⟨s', hdecode, hs'⟩ := hs.decode hl hend hrest
  refine ⟨s', ?_, hs'⟩
  rw [Puff.codesRound, Program.bind_ok hdecode, if_neg (by decide), if_neg (by decide)]
  rfl

end Reads

theorem Tells.length_le {out out' : List Bytef} {tallied : List Tally}
    (h : Tells out tallied out') : out.length ≤ out'.length := by
  induction h with
  | nil out => exact Nat.le_refl _
  | byte b h ih =>
      rw [List.length_append] at ih
      omega
  | found hfound hdist hlc hlength h ih =>
      rw [List.length_append] at ih
      omega

theorem dataBits_cons (ll dl : List Nat) (t : Tally) (rest : List Tally) :
    dataBits ll dl (t :: rest) = tallyBits ll dl t ++ dataBits ll dl rest := by
  rw [dataBits, dataBits, List.flatMap_cons, List.append_assoc]

/-- The data of a block is read as what it tells. -/
theorem codesLoop_reads {ll dl : List Nat} (hl : IsCode ll Puff.maxbits)
    (hd : IsCode dl Puff.maxbits) (hend : len ll 256 ≠ 0) {n : Nat} {out out' : List Bytef}
    {tallied : List Tally} (htells : Tells out tallied out')
    (hhas : ∀ t ∈ tallied, t.Has ll dl) (hroom : out'.length ≤ n) {k : Nat}
    (hk : tallied.length < k) {s : State} (hs : Ready n s) (hout : s.out = out)
    {more : List Bool} (hrest : s.rest = dataBits ll dl tallied ++ more) :
    ∃ s', Puff.codesLoop true (Puff.construct ll).1 (Puff.construct dl).1 k s = .ok () s' ∧
      Reads n s (dataBits ll dl tallied) out' s' := by
  induction htells generalizing k s with
  | nil out =>
      obtain ⟨k, rfl⟩ : ∃ j, k = j + 1 := ⟨k - 1, by omega⟩
      obtain ⟨s', hround, hs'⟩ := hs.codesRound_end hl (Puff.construct dl).1 hend hrest
      refine ⟨s', ?_, hout ▸ hs'⟩
      rw [Puff.codesLoop, Program.bind_ok hround]
      rfl
  | @byte out out' rest b h ih =>
      obtain ⟨k, rfl⟩ : ∃ j, k = j + 1 := ⟨k - 1, by omega⟩
      have hle := h.length_le
      rw [List.length_append, List.length_singleton] at hle
      rw [dataBits_cons, List.append_assoc] at hrest
      obtain ⟨t, hround, ht⟩ := hs.codesRound_byte hl (Puff.construct dl).1 b
        (hhas _ List.mem_cons_self) (by rw [hout]; omega) hrest
      rw [hout] at ht
      obtain ⟨s', hloop, hs'⟩ := ih (fun x hx => hhas x (List.mem_cons_of_mem _ hx)) hroom
        (Nat.lt_of_succ_lt_succ hk) ht.ready ht.out (ht.rest hrest)
      refine ⟨s', ?_, by rw [dataBits_cons]; exact ht.trans hs'⟩
      rw [Puff.codesLoop, Program.bind_ok hround]
      exact hloop
  | @found out found out' rest dist lc hfound hdist hlc hlength h ih =>
      obtain ⟨k, rfl⟩ : ∃ j, k = j + 1 := ⟨k - 1, by omega⟩
      have hle := h.length_le
      rw [List.length_append] at hle
      rw [dataBits_cons, List.append_assoc] at hrest
      obtain ⟨t, hround, ht⟩ := hs.codesRound_found hl hd (hout ▸ hfound) hdist hlc hlength
        (hhas _ List.mem_cons_self) (by rw [hout]; omega) hrest
      rw [hout] at ht
      obtain ⟨s', hloop, hs'⟩ := ih (fun x hx => hhas x (List.mem_cons_of_mem _ hx)) hroom
        (Nat.lt_of_succ_lt_succ hk) ht.ready ht.out (ht.rest hrest)
      refine ⟨s', ?_, by rw [dataBits_cons]; exact ht.trans hs'⟩
      rw [Puff.codesLoop, Program.bind_ok hround]
      exact hloop

theorem codeBits_ne_nil {lens : List Nat} {n : Nat} (hn : len lens n ≠ 0) :
    1 ≤ (codeBits lens n).length := by
  rw [codeBits, Bits.length_msb]
  omega

/-- There is at least one bit for each byte or match. -/
theorem length_le_dataBits {ll dl : List Nat} {tallied : List Tally}
    (hhas : ∀ t ∈ tallied, t.Has ll dl) : tallied.length ≤ (dataBits ll dl tallied).length := by
  induction tallied with
  | nil => exact Nat.zero_le _
  | cons t rest ih =>
      have hrest := ih fun x hx => hhas x (List.mem_cons_of_mem t hx)
      have hone : 1 ≤ (tallyBits ll dl t).length := by
        have ht := hhas t List.mem_cons_self
        rw [Tally.Has] at ht
        rw [tallyBits]
        split
        · next hzero =>
            rw [if_pos hzero] at ht
            exact codeBits_ne_nil ht
        · next hzero =>
            rw [if_neg hzero] at ht
            rw [List.length_append]
            exact Nat.le_add_right_of_le (codeBits_ne_nil ht.1)
      rw [dataBits_cons, List.length_append, List.length_cons]
      omega

theorem codes_reads {ll dl : List Nat} (hl : IsCode ll Puff.maxbits)
    (hd : IsCode dl Puff.maxbits) (hend : len ll 256 ≠ 0) {n : Nat} {out' : List Bytef}
    {tallied : List Tally} {s : State} (htells : Tells s.out tallied out')
    (hhas : ∀ t ∈ tallied, t.Has ll dl) (hroom : out'.length ≤ n) (hs : Ready n s)
    {more : List Bool} (hrest : s.rest = dataBits ll dl tallied ++ more) :
    ∃ s', Puff.codes true (Puff.construct ll).1 (Puff.construct dl).1 s = .ok () s' ∧
      Reads n s (dataBits ll dl tallied) out' s' := by
  refine codesLoop_reads hl hd hend htells hhas hroom ?_ hs rfl hrest
  have hbits := length_le_dataBits hhas
  have hleft := State.length_rest s
  rw [hrest, List.length_append] at hleft
  omega

end Trees
