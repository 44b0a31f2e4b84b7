import Dockerfiles.Zlib.PuffBits

/-! # Whole runs of `puff`

What holds of the functions that read and write, step by step, holds of `puff`, and the
rounds that its loops are given are enough.
-/

namespace Puff

open Zlib (Bytef)
open Bits (lsb value ofBytes)
open Program (AgreeAt Agree Spends)

/-! ## From steps to runs -/

/-- Two ways to run `puff` that agree in each function that reads or writes. The first may
give up for want of rounds. -/
structure Steps (slow slow' : Bool) (R : State → State → Prop)
    (E : Int → State → Int → State → Prop) (X : Int → State → Prop) : Prop where
  left_le : ∀ s t, R s t → s.left ≤ t.left
  fails : ∀ e : Int, e < 0 → ∀ s t, R s t → E e s e t ∨ X e t
  rounds : ∀ t, X 3 t
  bits : ∀ need, Agree R E X (bits need) (bits need)
  decode : ∀ h, Agree R E X (decode slow h) (decode slow' h)
  literal : ∀ symbol, Agree R E X (literal symbol) (literal symbol)
  copy : ∀ len dist, Agree R E X (copy len dist) (copy len dist)
  align : Agree R E X align align
  storedLength : Agree R E X storedLength storedLength
  store : ∀ len, Agree R E X (store len) (store len)

section Steps

variable {slow slow' : Bool} {R : State → State → Prop}
  {E : Int → State → Int → State → Prop} {X : Int → State → Prop}

theorem stored_agree (h : Steps slow slow' R E X) : Agree R E X stored stored :=
  h.align.bind fun _ => h.storedLength.bind fun len => h.store len

theorem lengthPair_agree (h : Steps slow slow' R E X) (distcode : Huffman) (symbol : Nat) :
    Agree R E X (lengthPair slow distcode symbol) (lengthPair slow' distcode symbol) := by
  refine Agree.ite (fun _ => Agree.throw (h.fails (-10) (by decide))) (fun _ => ?_)
  refine (h.bits _).bind fun extra => (h.decode distcode).bind fun code => ?_
  exact (h.bits _).bind fun more => h.copy _ _

theorem codesRound_agree (h : Steps slow slow' R E X) (lencode distcode : Huffman) :
    Agree R E X (codesRound slow lencode distcode) (codesRound slow' lencode distcode) := by
  refine (h.decode lencode).bind fun symbol => ?_
  refine Agree.ite (fun _ => (h.literal symbol).bind fun _ => Agree.pure true) (fun _ => ?_)
  refine Agree.ite (fun _ => ?_) (fun _ => Agree.pure false)
  exact (lengthPair_agree h distcode (symbol - 257)).bind fun _ => Agree.pure true

/-- Rounds that the second run has and the first has not do not matter. -/
theorem codesLoop_agree (h : Steps slow slow' R E X) (lencode distcode : Huffman) {k k' : Nat}
    (hk : k ≤ k') :
    Agree R E X (codesLoop slow lencode distcode k) (codesLoop slow' lencode distcode k') := by
  induction k' generalizing k with
  | zero =>
      obtain rfl : k = 0 := by omega
      exact Agree.throw fun _ t _ => Or.inr (h.rounds t)
  | succ k' ih =>
      have hround : ∀ j, j ≤ k' → Agree R E X (codesLoop slow lencode distcode (j + 1))
          (codesLoop slow' lencode distcode (k' + 1)) := by
        intro j hj
        refine (codesRound_agree h lencode distcode).bind fun more => ?_
        exact Agree.ite (fun _ => ih hj) (fun _ => Agree.pure ())
      cases k with
      | zero => exact Agree.throw_left h.rounds (hround k' (Nat.le_refl k')).kept
      | succ k => exact hround k (by omega)

theorem codes_agree (h : Steps slow slow' R E X) (lencode distcode : Huffman) :
    Agree R E X (codes slow lencode distcode) (codes slow' lencode distcode) where
  both := by
    intro s t hst
    have hle := h.left_le s t hst
    exact (codesLoop_agree h lencode distcode (Nat.succ_le_succ hle)).both s t hst
  kept := by
    intro e t hX
    exact (codesLoop_agree h lencode distcode (Nat.le_refl (t.left + 1))).kept e t hX

theorem readOrder_agree (h : Steps slow slow' R E X) (ncode : Nat) (order lengths : List Nat) :
    Agree R E X (readOrder ncode order lengths) (readOrder ncode order lengths) := by
  induction ncode generalizing order lengths with
  | zero => exact Agree.pure lengths
  | succ ncode ih =>
      cases order with
      | nil => exact Agree.pure lengths
      | cons i order => exact (h.bits 3).bind fun l => ih order (lengths.set i l)

theorem repeated_agree (h : Steps slow slow' R E X) (total : Nat) (lengths : List Nat)
    (len base need : Nat) :
    Agree R E X (repeated total lengths len base need) (repeated total lengths len base need) := by
  refine (h.bits need).bind fun extra => ?_
  exact Agree.ite (fun _ => Agree.throw (h.fails (-6) (by decide))) (fun _ => Agree.pure _)

theorem addLengths_agree (h : Steps slow slow' R E X) (total : Nat) (lengths : List Nat)
    (symbol : Nat) :
    Agree R E X (addLengths total lengths symbol) (addLengths total lengths symbol) := by
  refine Agree.ite (fun _ => Agree.pure _) (fun _ => ?_)
  refine Agree.ite (fun _ => ?_) (fun _ => ?_)
  · exact Agree.ite (fun _ => Agree.throw (h.fails (-5) (by decide)))
      (fun _ => repeated_agree h ..)
  · exact Agree.ite (fun _ => repeated_agree h ..) (fun _ => repeated_agree h ..)

theorem readLengths_agree (h : Steps slow slow' R E X) (hf : Huffman) (total k : Nat)
    (lengths : List Nat) :
    Agree R E X (readLengths slow hf total k lengths) (readLengths slow' hf total k lengths) := by
  induction k generalizing lengths with
  | zero => exact Agree.throw fun _ t _ => Or.inr (h.rounds t)
  | succ k ih =>
      refine Agree.ite (fun _ => ?_) (fun _ => Agree.pure lengths)
      refine (h.decode hf).bind fun symbol => ?_
      exact (addLengths_agree h total lengths symbol).bind fun lengths => ih lengths

theorem dynamicCodes_agree (h : Steps slow slow' R E X) (nlen : Nat) (lengths : List Nat) :
    Agree R E X (dynamicCodes slow nlen lengths) (dynamicCodes slow' nlen lengths) := by
  refine Agree.ite (fun _ => Agree.throw (h.fails (-9) (by decide))) (fun _ => ?_)
  refine Agree.ite (fun _ => Agree.throw (h.fails (-7) (by decide))) (fun _ => ?_)
  exact Agree.ite (fun _ => Agree.throw (h.fails (-8) (by decide))) (fun _ => codes_agree h _ _)

theorem dynamic_agree (h : Steps slow slow' R E X) :
    Agree R E X (dynamic slow) (dynamic slow') := by
  refine (h.bits 5).bind fun nlen => (h.bits 5).bind fun ndist => (h.bits 4).bind fun ncode => ?_
  refine Agree.ite (fun _ => Agree.throw (h.fails (-3) (by decide))) (fun _ => ?_)
  refine (readOrder_agree h ..).bind fun lengths => ?_
  refine Agree.ite (fun _ => Agree.throw (h.fails (-4) (by decide))) (fun _ => ?_)
  exact (readLengths_agree h ..).bind fun lengths => dynamicCodes_agree h (nlen + 257) lengths

theorem blockOf_agree (h : Steps slow slow' R E X) (type : Nat) :
    Agree R E X (blockOf slow type) (blockOf slow' type) := by
  refine Agree.ite (fun _ => stored_agree h) (fun _ => ?_)
  refine Agree.ite (fun _ => codes_agree h _ _) (fun _ => ?_)
  exact Agree.ite (fun _ => dynamic_agree h) (fun _ => Agree.throw (h.fails (-1) (by decide)))

theorem blockLoop_agree (h : Steps slow slow' R E X) {k k' : Nat} (hk : k ≤ k') :
    Agree R E X (blockLoop slow k) (blockLoop slow' k') := by
  induction k' generalizing k with
  | zero =>
      obtain rfl : k = 0 := by omega
      exact Agree.throw fun _ t _ => Or.inr (h.rounds t)
  | succ k' ih =>
      have hround : ∀ j, j ≤ k' →
          Agree R E X (blockLoop slow (j + 1)) (blockLoop slow' (k' + 1)) := by
        intro j hj
        refine (h.bits 1).bind fun last => (h.bits 2).bind fun type => ?_
        refine (blockOf_agree h type).bind fun _ => ?_
        exact Agree.ite (fun _ => Agree.pure ()) (fun _ => ih hj)
      cases k with
      | zero => exact Agree.throw_left h.rounds (hround k' (Nat.le_refl k')).kept
      | succ k => exact hround k (by omega)

/-- From steps to whole runs. -/
theorem inflate_agree (h : Steps slow slow' R E X) {dest dest' : Option Nat}
    {source source' : List Bytef} (hstart : R (start dest source) (start dest' source')) :
    AgreeAt R E X (inflate slow dest source) (inflate slow' dest' source') := by
  have hle := h.left_le _ _ hstart
  exact (blockLoop_agree h (Nat.succ_le_succ hle)).both _ _ hstart

/-- `decode` with `SLOW` is made of `bits`. -/
theorem decodeSlow_agree (hbits : Agree R E X (bits 1) (bits 1))
    (hfails : ∀ s t, R s t → E (-10) s (-10) t ∨ X (-10) t) (h : Huffman) :
    Agree R E X (decodeSlow h) (decodeSlow h) := by
  have hloop : ∀ k len code first index, Agree R E X (decodeLoop h k len code first index)
      (decodeLoop h k len code first index) := by
    intro k
    induction k with
    | zero =>
        intro len code first index
        exact Agree.throw hfails
    | succ k ih =>
        intro len code first index
        refine hbits.bind fun b => ?_
        exact Agree.ite (fun _ => Agree.pure _) (fun _ => ih _ _ _ _)
  exact hloop maxbits 1 0 0 0

end Steps

/-! ## Enough rounds -/

/-- The return codes other than zero. -/
def Known (e : Int) : Prop := -11 ≤ e ∧ e ≤ 2 ∧ e ≠ 0

instance (e : Int) : Decidable (Known e) := inferInstanceAs (Decidable (_ ∧ _))

theorem load_left {need : Nat} {input input' : List Bytef}
    {incnt val bitcnt incnt' val' bitcnt' : Nat}
    (h : load need input incnt val bitcnt = some (input', incnt', val', bitcnt')) :
    bitcnt' + 8 * input'.length = bitcnt + 8 * input.length ∧ need ≤ bitcnt' := by
  induction input generalizing incnt val bitcnt with
  | nil =>
      by_cases hlt : bitcnt < need
      · rw [load_nil hlt] at h
        cases h
      · rw [load_of_le (by omega)] at h
        cases h
        exact ⟨rfl, by omega⟩
  | cons b input ih =>
      by_cases hlt : bitcnt < need
      · rw [load_cons hlt] at h
        obtain ⟨hleft, hle⟩ := ih h
        rw [List.length_cons]
        exact ⟨by omega, hle⟩
      · rw [load_of_le (by omega)] at h
        cases h
        exact ⟨rfl, by omega⟩

theorem bits_spends (m need : Nat) : Spends State.left Known m need (bits need) where
  spent := by
    intro s _
    rw [bits]
    cases hload : load need s.input s.incnt s.bitbuf s.bitcnt with
    | none =>
        show Known 2
        decide
    | some loaded =>
        obtain ⟨input', incnt', val', bitcnt'⟩ := loaded
        obtain ⟨hleft, hle⟩ := load_left hload
        show bitcnt' - need + 8 * input'.length + need ≤ s.bitcnt + 8 * s.input.length
        omega

theorem decodeLoop_spends (h : Huffman) (m k len code first index : Nat) :
    Spends State.left Known m 1 (decodeLoop h k len code first index) := by
  induction k generalizing m len code first index with
  | zero => exact Spends.throw (by decide)
  | succ k ih =>
      refine (bits_spends m 1).bind fun b _ _ _ _ => ?_
      exact Spends.ite (fun _ => Spends.pure _) (fun _ => (ih ..).toZero)

theorem decode_spends (m : Nat) (h : Huffman) : Spends State.left Known m 1 (decode true h) :=
  decodeLoop_spends h m maxbits 1 0 0 0

theorem literal_spends (m symbol : Nat) : Spends State.left Known m 0 (literal symbol) where
  spent := by
    intro s _
    rw [literal]
    cases s.room with
    | none => exact Nat.le_refl s.left
    | some outlen =>
        dsimp only
        split
        · show Known 1
          decide
        · exact Nat.le_refl s.left

theorem put_spends (m len : Nat) (bytes : List Bytef → List Bytef) :
    Spends State.left Known m 0 (put len bytes) where
  spent := by
    intro s _
    rw [put]
    cases s.room with
    | none => exact Nat.le_refl s.left
    | some outlen =>
        dsimp only
        split
        · show Known 1
          decide
        · exact Nat.le_refl s.left

theorem copy_spends (m len dist : Nat) : Spends State.left Known m 0 (copy len dist) where
  spent := by
    intro s hs
    rw [copy]
    split
    · show Known (-11)
      decide
    · exact (put_spends m len _).spent s hs

theorem align_spends (m : Nat) : Spends State.left Known m 0 align where
  spent := by
    intro s _
    show 0 + 8 * s.input.length + 0 ≤ s.bitcnt + 8 * s.input.length
    omega

theorem storedLength_spends (m : Nat) : Spends State.left Known m 0 storedLength where
  spent := by
    intro s _
    rw [storedLength]
    split
    · next b0 b1 b2 b3 input hinput =>
        dsimp only
        split
        · show Known (-2)
          decide
        · split
          · show Known (-2)
            decide
          · show s.bitcnt + 8 * input.length + 0 ≤ s.bitcnt + 8 * s.input.length
            simp only [hinput, List.length_cons]
            omega
    · show Known 2
      decide

theorem skip_spends (m len : Nat) : Spends State.left Known m 0 (skip len) where
  spent := by
    intro s _
    show s.bitcnt + 8 * (s.input.drop len).length + 0 ≤ s.bitcnt + 8 * s.input.length
    rw [List.length_drop]
    omega

theorem store_spends (m len : Nat) : Spends State.left Known m 0 (store len) where
  spent := by
    intro s hs
    rw [store]
    split
    · show Known 2
      decide
    · have hput := (put_spends m len (· ++ s.input.take len)).bind
        fun _ _ _ _ _ => skip_spends (m - 0) len
      exact hput.spent s hs

theorem stored_spends (m : Nat) : Spends State.left Known m 0 stored := by
  refine (align_spends m).bind fun _ _ _ _ _ => ?_
  exact (storedLength_spends ..).bind fun len _ _ _ _ => store_spends ..

theorem lengthPair_spends (m : Nat) (distcode : Huffman) (symbol : Nat) :
    Spends State.left Known m 0 (lengthPair true distcode symbol) := by
  refine Spends.ite (fun _ => Spends.throw (by decide)) (fun _ => ?_)
  refine (bits_spends ..).toZero.bind fun extra _ _ _ _ => ?_
  refine (decode_spends ..).toZero.bind fun code _ _ _ _ => ?_
  exact (bits_spends ..).toZero.bind fun more _ _ _ _ => copy_spends ..

theorem codesRound_spends (m : Nat) (lencode distcode : Huffman) :
    Spends State.left Known m 1 (codesRound true lencode distcode) := by
  refine (decode_spends m lencode).bind fun symbol _ _ _ _ => ?_
  refine Spends.ite (fun _ => ?_) (fun _ => Spends.ite (fun _ => ?_) (fun _ => Spends.pure false))
  · exact (literal_spends ..).bind fun _ _ _ _ _ => Spends.pure true
  · exact (lengthPair_spends ..).bind fun _ _ _ _ _ => Spends.pure true

/-- Each round takes a bit, so there are enough rounds for the bits that are left. -/
theorem codesLoop_spends {m k : Nat} (hk : m < k) (lencode distcode : Huffman) :
    Spends State.left Known m 0 (codesLoop true lencode distcode k) := by
  induction k generalizing m with
  | zero => omega
  | succ k ih =>
      refine ((codesRound_spends m lencode distcode).bind fun more _ _ _ hm => ?_).toZero
      exact Spends.ite (fun _ => ih (by omega)) (fun _ => Spends.pure ())

theorem codes_spends (m : Nat) (lencode distcode : Huffman) :
    Spends State.left Known m 0 (codes true lencode distcode) where
  spent := by
    intro s _
    have hloop := codesLoop_spends (Nat.lt_succ_self s.left) lencode distcode
    exact hloop.spent s (Nat.le_refl s.left)

theorem readOrder_spends (m ncode : Nat) (order lengths : List Nat) :
    Spends State.left Known m 0 (readOrder ncode order lengths) := by
  induction ncode generalizing m order lengths with
  | zero => exact Spends.pure lengths
  | succ ncode ih =>
      cases order with
      | nil => exact Spends.pure lengths
      | cons i order => exact (bits_spends m 3).toZero.bind fun l _ _ _ _ => ih ..

theorem repeated_spends (m total : Nat) (lengths : List Nat) (len base need : Nat) :
    Spends State.left Known m 0 (repeated total lengths len base need) := by
  refine (bits_spends m need).toZero.bind fun extra _ _ _ _ => ?_
  exact Spends.ite (fun _ => Spends.throw (by decide)) (fun _ => Spends.pure _)

theorem addLengths_spends (m total : Nat) (lengths : List Nat) (symbol : Nat) :
    Spends State.left Known m 0 (addLengths total lengths symbol) := by
  refine Spends.ite (fun _ => Spends.pure _) (fun _ => ?_)
  refine Spends.ite (fun _ => ?_) (fun _ => ?_)
  · exact Spends.ite (fun _ => Spends.throw (by decide)) (fun _ => repeated_spends ..)
  · exact Spends.ite (fun _ => repeated_spends ..) (fun _ => repeated_spends ..)

/-- A run of lengths is not empty. -/
theorem repeated_length {total len base need : Nat} {lengths lengths' : List Nat} {s s' : State}
    (hbase : 0 < base) (h : repeated total lengths len base need s = .ok lengths' s') :
    lengths.length < lengths'.length := by
  change EStateM.bind (bits need) _ s = _ at h
  rw [EStateM.bind] at h
  cases hbits : bits need s with
  | error e t =>
      rw [hbits] at h
      cases h
  | ok extra t =>
      rw [hbits] at h
      dsimp only at h
      split at h
      · cases h
      · cases h
        simp only [List.length_append, List.length_replicate]
        omega

theorem addLengths_length {total symbol : Nat} {lengths lengths' : List Nat} {s s' : State}
    (h : addLengths total lengths symbol s = .ok lengths' s') :
    lengths.length < lengths'.length := by
  rw [addLengths] at h
  split at h
  · cases h
    simp
  · split at h
    · split at h
      · cases h
      · exact repeated_length (by decide) h
    · split at h
      · exact repeated_length (by decide) h
      · exact repeated_length (by decide) h

theorem readLengths_spends (hf : Huffman) (m : Nat) {total k : Nat} (lengths : List Nat)
    (hk : total < lengths.length + k) (hpos : 0 < k) :
    Spends State.left Known m 0 (readLengths true hf total k lengths) := by
  induction k generalizing m lengths with
  | zero => omega
  | succ k ih =>
      refine Spends.ite (fun hlt => ?_) (fun _ => Spends.pure lengths)
      refine (decode_spends m hf).toZero.bind fun symbol _ _ _ _ => ?_
      refine (addLengths_spends ..).bind fun lengths' _ _ hadd _ => ih _ lengths' ?_ (by omega)
      have := addLengths_length hadd
      omega

theorem dynamicCodes_spends (m nlen : Nat) (lengths : List Nat) :
    Spends State.left Known m 0 (dynamicCodes true nlen lengths) := by
  refine Spends.ite (fun _ => Spends.throw (by decide)) (fun _ => ?_)
  refine Spends.ite (fun _ => Spends.throw (by decide)) (fun _ => ?_)
  exact Spends.ite (fun _ => Spends.throw (by decide)) (fun _ => codes_spends ..)

theorem dynamic_spends (m : Nat) : Spends State.left Known m 0 (dynamic true) := by
  refine (bits_spends ..).toZero.bind fun nlen _ _ _ _ => ?_
  refine (bits_spends ..).toZero.bind fun ndist _ _ _ _ => ?_
  refine (bits_spends ..).toZero.bind fun ncode _ _ _ _ => ?_
  refine Spends.ite (fun _ => Spends.throw (by decide)) (fun _ => ?_)
  refine (readOrder_spends ..).bind fun lengths _ _ _ _ => ?_
  refine Spends.ite (fun _ => Spends.throw (by decide)) (fun _ => ?_)
  refine (readLengths_spends _ _ [] ?_ (Nat.succ_pos _)).bind fun lengths _ _ _ _ =>
    dynamicCodes_spends ..
  rw [List.length_nil]
  omega

theorem blockOf_spends (m type : Nat) : Spends State.left Known m 0 (blockOf true type) := by
  refine Spends.ite (fun _ => stored_spends m) (fun _ => ?_)
  refine Spends.ite (fun _ => codes_spends ..) (fun _ => ?_)
  exact Spends.ite (fun _ => dynamic_spends m) (fun _ => Spends.throw (by decide))

theorem blockLoop_spends {m k : Nat} (hk : m < k) :
    Spends State.left Known m 0 (blockLoop true k) := by
  induction k generalizing m with
  | zero => omega
  | succ k ih =>
      refine ((bits_spends m 1).bind fun last _ _ _ hm => ?_).toZero
      refine (bits_spends ..).toZero.bind fun type _ _ _ _ => ?_
      refine (blockOf_spends ..).bind fun _ _ _ _ _ => ?_
      exact Spends.ite (fun _ => Spends.pure ()) (fun _ => ih (by omega))

end Puff
