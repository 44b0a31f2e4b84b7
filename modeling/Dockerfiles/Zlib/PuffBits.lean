import Dockerfiles.Program.Rules
import Dockerfiles.Zlib.Puff

/-! # What `puff` reads

The bits that are still to be read, what `bits` takes of them, and that both versions of
`decode` take the same bits and find the same symbol.
-/

namespace Puff

open Zlib (Bytef)
open Bits (lsb value ofBytes)
open Program (AgreeAt Agree Spends)

/-! ## The bits to be read -/

/-- Less than eight bits are kept, and nothing above them. -/
structure State.Valid (s : State) : Prop where
  bitcnt_lt : s.bitcnt < 8
  bitbuf_lt : s.bitbuf < 2 ^ s.bitcnt

def State.rest (s : State) : List Bool := lsb s.bitcnt s.bitbuf ++ ofBytes s.input

theorem State.length_rest (s : State) : s.rest.length = s.left := by
  simp [rest, left]

/-- `s'` is `s` after the bits `u` were read. -/
structure Took (s : State) (u : List Bool) (s' : State) : Prop where
  valid : s'.Valid
  stream : s.rest = u ++ s'.rest
  out : s'.out = s.out
  room : s'.room = s.room
  outcnt : s'.outcnt = s.outcnt
  total : s'.incnt + s'.input.length = s.incnt + s.input.length

theorem Took.refl {s : State} (h : s.Valid) : Took s [] s where
  valid := h
  stream := rfl
  out := rfl
  room := rfl
  outcnt := rfl
  total := rfl

theorem Took.trans {s t r : State} {u v : List Bool} (h : Took s u t) (h' : Took t v r) :
    Took s (u ++ v) r where
  valid := h'.valid
  stream := by rw [h.stream, h'.stream, List.append_assoc]
  out := h'.out.trans h.out
  room := h'.room.trans h.room
  outcnt := h'.outcnt.trans h.outcnt
  total := h'.total.trans h.total

/-! ## The loop of `bits` -/

theorem load_of_le {need bitcnt : Nat} (h : need ≤ bitcnt) (input : List Bytef)
    (incnt val : Nat) : load need input incnt val bitcnt = some (input, incnt, val, bitcnt) := by
  rw [load.eq_def, if_neg (by omega)]

theorem load_nil {need bitcnt : Nat} (h : bitcnt < need) (incnt val : Nat) :
    load need [] incnt val bitcnt = none := by
  rw [load.eq_def, if_pos h]

theorem load_cons {need bitcnt : Nat} (h : bitcnt < need) (b : Bytef) (input : List Bytef)
    (incnt val : Nat) :
    load need (b :: input) incnt val bitcnt =
      load need input (incnt + 1) (val ||| (b.toNat <<< bitcnt)) (bitcnt + 8) := by
  rw [load.eq_def, if_pos h]

theorem load_spec {need : Nat} (input : List Bytef) {incnt val bitcnt : Nat}
    (hval : val < 2 ^ bitcnt) (hcnt : bitcnt < need + 8) (hneed : need ≤ bitcnt + 8 * input.length) :
    ∃ input' incnt' val' bitcnt',
      load need input incnt val bitcnt = some (input', incnt', val', bitcnt') ∧
        lsb bitcnt' val' ++ ofBytes input' = lsb bitcnt val ++ ofBytes input ∧
        val' < 2 ^ bitcnt' ∧ need ≤ bitcnt' ∧ bitcnt' < need + 8 ∧
        incnt' + input'.length = incnt + input.length := by
  induction input generalizing incnt val bitcnt with
  | nil =>
      have hle : need ≤ bitcnt := by simpa using hneed
      exact ⟨[], incnt, val, bitcnt, load_of_le hle .., rfl, hval, hle, hcnt, rfl⟩
  | cons b input ih =>
      by_cases hlt : bitcnt < need
      · have hval' : val + 2 ^ bitcnt * b.toNat < 2 ^ (bitcnt + 8) := Bits.add_lt hval b.isLt
        rw [List.length_cons] at hneed
        obtain ⟨input', incnt', val', bitcnt', hload, hstream, h1, h2, h3, htotal⟩ :=
          @ih (incnt + 1) _ _ hval' (by omega) (by omega)
        refine ⟨input', incnt', val', bitcnt', ?_, ?_, h1, h2, h3, ?_⟩
        · rw [load_cons hlt, Bits.or_shiftLeft hval, hload]
        · rw [hstream, Bits.lsb_add hval, Bits.ofBytes_cons, List.append_assoc]
        · rw [htotal, List.length_cons]
          omega
      · have hle : need ≤ bitcnt := by omega
        exact ⟨b :: input, incnt, val, bitcnt, load_of_le hle .., rfl, hval, hle, hcnt, rfl⟩

theorem load_none {need : Nat} (input : List Bytef) {incnt val bitcnt : Nat}
    (h : bitcnt + 8 * input.length < need) : load need input incnt val bitcnt = none := by
  induction input generalizing incnt val bitcnt with
  | nil => exact load_nil (by simpa using h) incnt val
  | cons b input ih =>
      rw [List.length_cons] at h
      rw [load_cons (by omega)]
      exact ih (by omega)

/-! ## `bits` -/

/-- `bits` takes the next `need` bits, the lowest first. -/
theorem bits_spec {s : State} (h : s.Valid) {need : Nat} (hneed : need ≤ s.left) :
    ∃ v s', bits need s = .ok v s' ∧ v < 2 ^ need ∧ Took s (lsb need v) s' := by
  obtain ⟨input', incnt', val', bitcnt', hload, hstream, hval, hle, hlt, htotal⟩ :=
    @load_spec need s.input s.incnt s.bitbuf s.bitcnt h.bitbuf_lt
      (by have := h.bitcnt_lt; omega) hneed
  have hpow : 2 ^ need * 2 ^ (bitcnt' - need) = 2 ^ bitcnt' := by
    rw [← Nat.pow_add, show need + (bitcnt' - need) = bitcnt' by omega]
  let s' : State :=
    { s with input := input', incnt := incnt', bitbuf := val' / 2 ^ need, bitcnt := bitcnt' - need }
  refine ⟨val' % 2 ^ need, s', ?_, Nat.mod_lt _ (Nat.two_pow_pos need), ?_, ?_, rfl, rfl, rfl,
    htotal⟩
  · rw [bits, hload]
    simp only [Nat.one_shiftLeft, Nat.and_two_pow_sub_one_eq_mod, Nat.shiftRight_eq_div_pow]
    rfl
  · refine ⟨?_, ?_⟩
    · show bitcnt' - need < 8
      omega
    · show val' / 2 ^ need < 2 ^ (bitcnt' - need)
      exact Nat.div_lt_of_lt_mul (by rwa [hpow])
  · have hsplit := Bits.lsb_append need (bitcnt' - need) val'
    rw [show need + (bitcnt' - need) = bitcnt' by omega] at hsplit
    show s.rest = _ ++ (lsb (bitcnt' - need) (val' / 2 ^ need) ++ ofBytes input')
    rw [State.rest, ← hstream, hsplit, Bits.lsb_mod (Nat.le_refl need), List.append_assoc]

theorem bits_error {s : State} {need : Nat} (hneed : s.left < need) :
    bits need s = .error 2 s := by
  rw [bits, load_none s.input hneed]

theorem bits_fails {s s' : State} {need : Nat} {e : Int} (h : bits need s = .error e s') :
    s' = s := by
  rw [bits] at h
  cases hload : load need s.input s.incnt s.bitbuf s.bitcnt with
  | none =>
      rw [hload] at h
      cases h
      rfl
  | some loaded =>
      rw [hload] at h
      cases h

theorem bits_took {s s' : State} (h : s.Valid) {need v : Nat} (hbits : bits need s = .ok v s') :
    v < 2 ^ need ∧ Took s (lsb need v) s' := by
  by_cases hneed : need ≤ s.left
  · obtain ⟨v', t, ht, hv, htook⟩ := bits_spec h hneed
    rw [ht] at hbits
    injection hbits with hv' ht'
    rw [← hv', ← ht']
    exact ⟨hv, htook⟩
  · rw [bits_error (by omega)] at hbits
    injection hbits

/-- The bits of a number are read back. -/
theorem bits_lsb {s : State} (h : s.Valid) {need v : Nat} (hv : v < 2 ^ need) {more : List Bool}
    (hrest : s.rest = lsb need v ++ more) :
    ∃ s', bits need s = .ok v s' ∧ Took s (lsb need v) s' := by
  have hneed : need ≤ s.left := by
    rw [← State.length_rest, hrest, List.length_append, Bits.length_lsb]
    omega
  obtain ⟨v', s', hbits, hv', htook⟩ := bits_spec h hneed
  have heq : lsb need v' = lsb need v := by
    have hstream := htook.stream
    rw [hrest] at hstream
    exact (List.append_inj hstream (by simp)).1.symm
  have hvv : v' = v := by
    have hval := congrArg value heq
    rwa [Bits.value_lsb, Bits.value_lsb, Nat.mod_eq_of_lt hv', Nat.mod_eq_of_lt hv] at hval
  rw [hvv] at hbits htook
  exact ⟨s', hbits, htook⟩

/-! ## `decode` -/

theorem bits_one {s : State} (h : 0 < s.bitcnt) :
    bits 1 s =
      .ok (s.bitbuf &&& 1) { s with bitbuf := s.bitbuf >>> 1, bitcnt := s.bitcnt - 1 } := by
  rw [bits, load_of_le h]
  rfl

/-- At the end of a byte the next one is taken. -/
theorem bits_one_next (s : State) (b : Bytef) (input : List Bytef) (incnt : Nat) :
    bits 1 { s with input := b :: input, incnt, bitbuf := 0, bitcnt := 0 } =
      bits 1 { s with input, incnt := incnt + 1, bitbuf := b.toNat, bitcnt := 8 } := by
  rw [bits, bits, load_cons Nat.zero_lt_one, load_of_le (Nat.le_add_left 1 7),
    load_of_le (show 1 ≤ 8 by omega),
    Nat.shiftLeft_zero, Nat.zero_or]

namespace Scan

/-- The code with the next bit. -/
def full (scan : Scan) : Nat := scan.code ||| (scan.bitbuf &&& 1)

/-- With the next bit, there is a code. -/
def Done (h : Huffman) (scan : Scan) : Prop :=
  (scan.full : Int) - entry h.count scan.len < scan.first

instance (h : Huffman) (scan : Scan) : Decidable (scan.Done h) :=
  inferInstanceAs (Decidable (_ < _))

def symbol (h : Huffman) (scan : Scan) : Nat :=
  entry h.symbol (scan.index + (scan.full - scan.first))

def next (h : Huffman) (scan : Scan) : Scan where
  code := scan.full <<< 1
  first := (scan.first + entry h.count scan.len) <<< 1
  index := scan.index + entry h.count scan.len
  len := scan.len + 1
  bitbuf := scan.bitbuf >>> 1

end Scan

theorem scanBits_succ (h : Huffman) (left : Nat) (scan : Scan) :
    scanBits h (left + 1) scan =
      if scan.Done h then .found (scan.symbol h) scan.len (scan.bitbuf >>> 1)
      else scanBits h left (scan.next h) := rfl

/-- The loop of `decode` with `SLOW` on the bits `bitbuf`, which are `bitcnt`, of a byte. -/
def decodeAt (h : Huffman) (k : Nat) (s : State) (bitcnt : Nat) (scan : Scan) :
    EStateM.Result Int State Nat :=
  decodeLoop h k scan.len scan.code scan.first scan.index { s with bitbuf := scan.bitbuf, bitcnt }

theorem decodeAt_succ (h : Huffman) (k : Nat) (s : State) {bitcnt : Nat} (hcnt : 0 < bitcnt)
    (scan : Scan) :
    decodeAt h (k + 1) s bitcnt scan =
      if scan.Done h then
        .ok (scan.symbol h) { s with bitbuf := scan.bitbuf >>> 1, bitcnt := bitcnt - 1 }
      else decodeAt h k s (bitcnt - 1) (scan.next h) := by
  rw [decodeAt, decodeLoop]
  show EStateM.bind (bits 1) _ _ = _
  rw [EStateM.bind, bits_one hcnt]
  by_cases hdone : scan.Done h
  · rw [if_pos hdone]
    exact congrFun (if_pos hdone) _
  · rw [if_neg hdone]
    exact congrFun (if_neg hdone) _

/-- What the bits of a byte lead to is what reading them one by one leads to. -/
theorem scanBits_eq (h : Huffman) (s : State) (left : Nat) {k bitcnt : Nat} (scan : Scan)
    (hk : left ≤ k) (hcnt : left ≤ bitcnt) :
    match scanBits h left scan with
    | .found symbol len bitbuf =>
        decodeAt h k s bitcnt scan =
            .ok symbol { s with bitbuf, bitcnt := bitcnt - (len + 1 - scan.len) } ∧
          scan.len ≤ len ∧ len < scan.len + left
    | .more scan' =>
        decodeAt h k s bitcnt scan = decodeAt h (k - left) s (bitcnt - left) scan' ∧
          scan'.len = scan.len + left ∧ scan'.bitbuf = scan.bitbuf >>> left := by
  induction left generalizing k bitcnt scan with
  | zero => exact ⟨rfl, rfl, rfl⟩
  | succ left ih =>
      obtain ⟨k, rfl⟩ : ∃ j, k = j + 1 := ⟨k - 1, by omega⟩
      rw [decodeAt_succ h k s (by omega), scanBits_succ]
      by_cases hdone : scan.Done h
      · rw [if_pos hdone, if_pos hdone]
        refine ⟨?_, Nat.le_refl scan.len, by omega⟩
        rw [Nat.add_sub_cancel_left]
      · rw [if_neg hdone, if_neg hdone]
        have hlen : (scan.next h).len = scan.len + 1 := rfl
        have hnext := @ih k (bitcnt - 1) (scan.next h) (by omega) (by omega)
        revert hnext
        cases scanBits h left (scan.next h) with
        | found symbol len bitbuf =>
            rintro ⟨heq, hle, hlt⟩
            refine ⟨?_, by omega, by omega⟩
            rw [heq, hlen, show bitcnt - 1 - (len + 1 - (scan.len + 1)) =
              bitcnt - (len + 1 - scan.len) by omega]
        | more scan' =>
            rintro ⟨heq, hlen', hbuf⟩
            refine ⟨?_, by omega, ?_⟩
            · rw [heq, show k + 1 - (left + 1) = k - left by omega,
                show bitcnt - (left + 1) = bitcnt - 1 - left by omega]
            · rw [hbuf, Scan.next, ← Nat.shiftRight_add, Nat.add_comm 1 left]

/-- After a byte, reading goes on with the next one. -/
theorem decodeAt_next (h : Huffman) (k : Nat) (s : State) (b : Bytef) (input : List Bytef)
    (incnt : Nat) {scan : Scan} (hbuf : scan.bitbuf = 0) :
    decodeAt h (k + 1) { s with input := b :: input, incnt } 0 scan =
      decodeAt h (k + 1) { s with input, incnt := incnt + 1 } 8
        { scan with bitbuf := b.toNat } := by
  rw [decodeAt, decodeAt, decodeLoop, hbuf]
  show EStateM.bind (bits 1) _ _ = EStateM.bind (bits 1) _ _
  rw [EStateM.bind, EStateM.bind]
  have hbits := bits_one_next s b input incnt
  rw [hbits]

theorem decodeAt_end (h : Huffman) (k : Nat) (s : State) {scan : Scan} (incnt : Nat) :
    ∃ t, decodeAt h (k + 1) { s with input := [], incnt } 0 scan = .error 2 t ∧
      t.out = s.out ∧ t.outcnt = s.outcnt := by
  rw [decodeAt, decodeLoop]
  refine ⟨{ s with input := [], incnt, bitbuf := scan.bitbuf, bitcnt := 0 }, ?_, rfl, rfl⟩
  show EStateM.bind (bits 1) _ _ = _
  rw [EStateM.bind, bits_error Nat.zero_lt_one]

/-- Two failures that are the same to the caller of `puff`. -/
def SameFailure (e : Int) (s : State) (d : Int) (t : State) : Prop :=
  e = d ∧ s.out = t.out ∧ s.outcnt = t.outcnt ∧ (e ≤ 0 → s.incnt = t.incnt)

/-- The bits of a byte are gone through: there is a symbol, or no code is left, or the
next byte is needed. -/
theorem scanBytes_step (h : Huffman) (s : State) (input : List Bytef) {incnt k bitcnt : Nat}
    (scan : Scan) (hk : k + scan.len = maxbits + 1) (hcnt : bitcnt ≤ 8)
    (hlen : ((s.bitcnt : Int) - scan.len) % 8 = ((bitcnt : Int) - 1) % 8)
    (hbuf : scan.bitbuf < 2 ^ bitcnt) :
    AgreeAt (fun s t => s = t) SameFailure (fun _ _ => False)
        (decodeAt h k { s with input, incnt } bitcnt scan)
        (scanBytes h s input incnt (min k bitcnt) scan) ∨
      ∃ k' scan', k' + 1 + scan'.len = maxbits + 1 ∧ scan'.bitbuf = 0 ∧
        ((s.bitcnt : Int) - scan'.len) % 8 = 7 ∧
        decodeAt h k { s with input, incnt } bitcnt scan =
          decodeAt h (k' + 1) { s with input, incnt } 0 scan' ∧
        scanBytes h s input incnt (min k bitcnt) scan =
          match input with
          | [] => .error 2 { s with input := [], incnt }
          | b :: input =>
              scanBytes h s input (incnt + 1) (min (k' + 1) 8) { scan' with bitbuf := b.toNat } := by
  have hscan := @scanBits_eq h { s with input, incnt } (min k bitcnt) k bitcnt scan
    (Nat.min_le_left ..) (Nat.min_le_right ..)
  rw [scanBytes.eq_def]
  revert hscan
  cases scanBits h (min k bitcnt) scan with
  | found symbol len bitbuf =>
      rintro ⟨heq, hle, hlt⟩
      have hleft : (((s.bitcnt : Int) - len) % 8).toNat = bitcnt - (len + 1 - scan.len) := by
        omega
      rw [heq]
      dsimp only
      rw [hleft]
      exact Or.inl ⟨rfl, rfl⟩
  | more scan' =>
      rintro ⟨heq, hlen', hbuf'⟩
      rw [heq]
      by_cases hend : maxbits + 1 - scan'.len = 0
      · left
        rw [show k - min k bitcnt = 0 by omega]
        dsimp only
        rw [if_pos hend]
        exact Or.inl ⟨rfl, rfl, rfl, fun _ => rfl⟩
      · have hmin : min k bitcnt = bitcnt := by omega
        refine Or.inr ⟨k - bitcnt - 1, scan', by omega, ?_, by omega, ?_, ?_⟩
        · rw [hbuf', hmin, Nat.shiftRight_eq_div_pow]
          exact Nat.div_eq_of_lt hbuf
        · rw [hmin, Nat.sub_self, show k - bitcnt - 1 + 1 = k - bitcnt by omega]
        · cases input with
          | nil => exact if_neg hend
          | cons b input =>
              have hleft : maxbits + 1 - scan'.len = k - bitcnt - 1 + 1 := by omega
              rw [← hleft]
              exact if_neg hend

/-- The bytes are gone through with `bitcnt` bits of the last one left, which is what
`s` and the length that is reached say. -/
theorem scanBytes_agree (h : Huffman) (s : State) (input : List Bytef) {incnt k bitcnt : Nat}
    (scan : Scan) (hk : k + scan.len = maxbits + 1) (hcnt : bitcnt ≤ 8)
    (hlen : ((s.bitcnt : Int) - scan.len) % 8 = ((bitcnt : Int) - 1) % 8)
    (hbuf : scan.bitbuf < 2 ^ bitcnt) :
    AgreeAt (fun s t => s = t) SameFailure (fun _ _ => False)
      (decodeAt h k { s with input, incnt } bitcnt scan)
      (scanBytes h s input incnt (min k bitcnt) scan) := by
  induction input generalizing incnt k bitcnt scan with
  | nil =>
      obtain hdone | ⟨k', scan', -, -, -, hslow, hfast⟩ :=
        @scanBytes_step h s [] incnt k bitcnt scan hk hcnt hlen hbuf
      · exact hdone
      · obtain ⟨t, ht, hout, houtcnt⟩ := @decodeAt_end h k' s scan' incnt
        rw [hslow, hfast, ht]
        exact Or.inl ⟨rfl, hout, houtcnt, by omega⟩
  | cons b input ih =>
      obtain hdone | ⟨k', scan', hk', hbuf', hlen', hslow, hfast⟩ :=
        @scanBytes_step h s (b :: input) incnt k bitcnt scan hk hcnt hlen hbuf
      · exact hdone
      · rw [hslow, hfast, decodeAt_next h k' s b input incnt hbuf']
        exact ih { scan' with bitbuf := b.toNat } hk' (Nat.le_refl 8) hlen' b.isLt

/-- With `SLOW` or without, `decode` is the same. -/
theorem decode_agree (h : Huffman) {s : State} (hs : s.Valid) :
    AgreeAt (fun s t => s = t) SameFailure (fun _ _ => False) (decodeSlow h s) (decodeFast h s) := by
  have hmin : min maxbits s.bitcnt = s.bitcnt := by
    have := hs.bitcnt_lt
    rw [maxbits]
    omega
  have hagree := @scanBytes_agree h s s.input s.incnt maxbits s.bitcnt
    { code := 0, first := 0, index := 0, len := 1, bitbuf := s.bitbuf } rfl
    (Nat.le_of_lt hs.bitcnt_lt) rfl hs.bitbuf_lt
  rw [hmin] at hagree
  exact hagree

/-- `decode` with `SLOW` only reads, also when it fails. -/
theorem decodeLoop_took (h : Huffman) (k len code first index : Nat) {s : State} (hs : s.Valid) :
    ∃ u, Took s u (Program.leaves (decodeLoop h k len code first index s)) := by
  induction k generalizing len code first index s with
  | zero => exact ⟨[], Took.refl hs⟩
  | succ k ih =>
      rw [decodeLoop, Program.leaves_bind]
      cases hbits : bits 1 s with
      | error e t =>
          rw [bits_fails hbits]
          exact ⟨[], Took.refl hs⟩
      | ok b t =>
          obtain ⟨-, htook⟩ := bits_took hs hbits
          dsimp only
          split
          · exact ⟨_, htook⟩
          · obtain ⟨u, hu⟩ := ih (len + 1) _ _ _ htook.valid
            exact ⟨_, htook.trans hu⟩

end Puff
