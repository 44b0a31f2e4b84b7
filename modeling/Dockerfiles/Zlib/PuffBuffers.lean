import Dockerfiles.Zlib.PuffRuns

/-! # The buffers of `puff`

What holds between the functions of `puff` on every input. With this, `SLOW` makes no
difference, the rounds are enough, and `puff` keeps to its buffers.
-/

namespace Puff

open Zlib (Bytef)
open Program (AgreeAt Agree leaves mapState)

/-! ## The buffers -/

/-- No more was read than there is, no more was written than there is room for, and
nothing was written when the output is only counted. -/
structure State.Within (dest : Option Nat) (source : List Bytef) (s : State) : Prop where
  room : s.room = dest
  total : s.incnt + s.input.length = source.length
  written : ∀ n, dest = some n → s.out.length = s.outcnt ∧ s.outcnt ≤ n
  counted : dest = none → s.out = []

/-- What holds between the functions of `puff`. -/
structure State.Sound (dest : Option Nat) (source : List Bytef) (s : State) : Prop where
  valid : s.Valid
  within : s.Within dest source

theorem start_sound (dest : Option Nat) (source : List Bytef) :
    (start dest source).Sound dest source where
  valid := ⟨Nat.zero_lt_succ 7, Nat.zero_lt_one⟩
  within := ⟨rfl, Nat.zero_add _, fun n _ => ⟨rfl, Nat.zero_le n⟩, fun _ => rfl⟩

/-- What `put` does: it fails for want of room, writes, or counts. -/
theorem put_cases (len : Nat) (bytes : List Bytef → List Bytef) (s : State) :
    (∃ outlen, s.room = some outlen ∧ outlen < s.outcnt + len ∧ put len bytes s = .error 1 s) ∨
      (∃ outlen, s.room = some outlen ∧ s.outcnt + len ≤ outlen ∧
        put len bytes s = .ok () { s with out := bytes s.out, outcnt := s.outcnt + len }) ∨
      (s.room = none ∧ put len bytes s = .ok () { s with outcnt := s.outcnt + len }) := by
  rw [put]
  cases hroom : s.room with
  | none => exact Or.inr (Or.inr ⟨rfl, rfl⟩)
  | some outlen =>
      by_cases hfull : outlen < s.outcnt + len
      · exact Or.inl ⟨outlen, rfl, hfull, if_pos hfull⟩
      · exact Or.inr (Or.inl ⟨outlen, rfl, by omega, if_neg hfull⟩)

section Sound

variable {dest : Option Nat} {source : List Bytef} {s : State}

/-- Where `puff` is, a literal is one byte more like any other. -/
theorem literal_eq_put (hs : s.Within dest source) (symbol : Nat) :
    literal symbol s = put 1 (· ++ [BitVec.ofNat 8 symbol]) s := by
  rw [literal, put]
  cases hroom : s.room with
  | none => rfl
  | some outlen =>
      have hdest : dest = some outlen := by rw [← hs.room, hroom]
      obtain ⟨-, hle⟩ := hs.written outlen hdest
      by_cases hfull : s.outcnt = outlen
      · dsimp only
        rw [if_pos hfull, if_pos (by omega)]
      · dsimp only
        rw [if_neg hfull, if_neg (by omega)]

/-- Reading keeps what is written. -/
theorem Took.sound {s' : State} {u : List Bool} (h : Took s u s') (hs : s.Sound dest source) :
    s'.Sound dest source where
  valid := h.valid
  within := by
    refine ⟨h.room.trans hs.within.room, h.total.trans hs.within.total, ?_, ?_⟩
    · rw [h.out, h.outcnt]
      exact hs.within.written
    · rw [h.out]
      exact hs.within.counted

theorem bits_sound (need : Nat) (hs : s.Sound dest source) :
    (leaves (bits need s)).Sound dest source := by
  cases hbits : bits need s with
  | ok v s' => exact (bits_took hs.valid hbits).2.sound hs
  | error e s' =>
      rw [bits_fails hbits]
      exact hs

theorem decodeSlow_sound (h : Huffman) (hs : s.Sound dest source) :
    (leaves (decodeSlow h s)).Sound dest source := by
  obtain ⟨u, hu⟩ := decodeLoop_took h maxbits 1 0 0 0 hs.valid
  exact hu.sound hs

theorem put_sound {len : Nat} {bytes : List Bytef → List Bytef}
    (hlen : (bytes s.out).length = s.out.length + len) (hs : s.Sound dest source) :
    (leaves (put len bytes s)).Sound dest source := by
  obtain ⟨outlen, -, -, hput⟩ | ⟨outlen, hroom, hle, hput⟩ | ⟨hroom, hput⟩ := put_cases len bytes s
  · rw [hput]
    exact hs
  · rw [hput]
    have hdest : dest = some outlen := by rw [← hs.within.room, hroom]
    refine ⟨⟨hs.valid.1, hs.valid.2⟩, hs.within.room, hs.within.total, ?_, ?_⟩
    · intro n hn
      have hn' : outlen = n := Option.some.inj (hdest.symm.trans hn)
      have hout := (hs.within.written n hn).1
      show (bytes s.out).length = s.outcnt + len ∧ s.outcnt + len ≤ n
      omega
    · intro hnone
      rw [hdest] at hnone
      cases hnone
  · rw [hput]
    refine ⟨⟨hs.valid.1, hs.valid.2⟩, hs.within.room, hs.within.total, ?_, hs.within.counted⟩
    intro n hn
    rw [← hs.within.room, hroom] at hn
    cases hn

theorem literal_sound (symbol : Nat) (hs : s.Sound dest source) :
    (leaves (literal symbol s)).Sound dest source := by
  rw [literal_eq_put hs.within]
  exact put_sound List.length_append hs

theorem length_copyLoop (dist len : Nat) (out : List Bytef) :
    (copyLoop dist len out).length = out.length + len := by
  induction len generalizing out with
  | zero => rfl
  | succ len ih =>
      rw [copyLoop, ih, List.length_append, List.length_singleton]
      omega

theorem copy_sound (len dist : Nat) (hs : s.Sound dest source) :
    (leaves (copy len dist s)).Sound dest source := by
  rw [copy]
  split
  · exact hs
  · exact put_sound (length_copyLoop dist len s.out) hs

theorem align_sound (hs : s.Sound dest source) : (leaves (align s)).Sound dest source :=
  ⟨⟨Nat.zero_lt_succ 7, Nat.zero_lt_one⟩, hs.within.room, hs.within.total, hs.within.written,
    hs.within.counted⟩

/-- Bytes of the input are done with. -/
theorem State.Sound.read (hs : s.Sound dest source) {input : List Bytef} {incnt : Nat}
    (h : incnt + input.length = s.incnt + s.input.length) :
    ({ s with input, incnt } : State).Sound dest source :=
  ⟨⟨hs.valid.1, hs.valid.2⟩, hs.within.room, h.trans hs.within.total, hs.within.written,
    hs.within.counted⟩

theorem storedLength_sound (hs : s.Sound dest source) :
    (leaves (storedLength s)).Sound dest source := by
  rw [storedLength]
  split
  · next b0 b1 b2 b3 input hinput =>
      have hlen : s.input.length = input.length + 4 := by rw [hinput]; rfl
      dsimp only
      split
      · exact hs.read (by rw [hlen, List.length_cons]; omega)
      · split
        · exact hs.read (by rw [hlen]; omega)
        · exact hs.read (by rw [hlen]; omega)
  · exact hs

theorem store_sound (len : Nat) (hs : s.Sound dest source) :
    (leaves (store len s)).Sound dest source := by
  rw [store]
  split
  · exact hs
  · next hle =>
      have hlen : (s.out ++ s.input.take len).length = s.out.length + len := by
        rw [List.length_append, List.length_take]
        omega
      have hskip : s.incnt + len + (s.input.drop len).length = s.incnt + s.input.length := by
        rw [List.length_drop]
        omega
      have hsound := @put_sound dest source s len (· ++ s.input.take len) hlen hs
      rw [Program.leaves_bind]
      obtain ⟨outlen, -, -, hput⟩ | ⟨outlen, -, -, hput⟩ | ⟨-, hput⟩ :=
        put_cases len (· ++ s.input.take len) s
      · rw [hput]
        exact hs
      · rw [hput] at hsound ⊢
        exact hsound.read hskip
      · rw [hput] at hsound ⊢
        exact hsound.read hskip

end Sound

/-! ## With `SLOW` and without -/

/-- Both versions of `decode` make the same steps, within the buffers. -/
theorem steps_slow (dest : Option Nat) (source : List Bytef) :
    Steps true false (fun s t => t = s ∧ s.Sound dest source)
      (fun e s d t => SameFailure e s d t ∧ s.Sound dest source) (fun e _ => e = 3) := by
  have hsame : ∀ (e : Int) (s : State), s.Sound dest source →
      SameFailure e s e s ∧ s.Sound dest source :=
    fun e s hs => ⟨⟨rfl, rfl, rfl, fun _ => rfl⟩, hs⟩
  constructor
  case left_le =>
    rintro s t ⟨rfl, -⟩
    exact Nat.le_refl t.left
  case fails =>
    rintro e - s t ⟨rfl, hs⟩
    exact Or.inl (hsame e t hs)
  case rounds => exact fun _ => rfl
  case bits => exact fun need => Agree.self hsame (fun s hs => bits_sound need hs) fun _ _ h => h
  case decode =>
    intro h
    refine ⟨?_, fun _ _ h => h⟩
    rintro s t ⟨rfl, hs⟩
    have hagree := decode_agree h hs.valid
    have hsound := decodeSlow_sound h hs
    show AgreeAt _ _ _ (decodeSlow h t) (decodeFast h t)
    cases hslow : decodeSlow h t with
    | ok a s' =>
        cases hfast : decodeFast h t with
        | ok b t' =>
            rw [hslow, hfast] at hagree
            rw [hslow] at hsound
            exact ⟨hagree.1, hagree.2.symm, hsound⟩
        | error d t' =>
            rw [hslow, hfast] at hagree
            exact hagree.elim
    | error e s' =>
        cases hfast : decodeFast h t with
        | ok b t' =>
            rw [hslow, hfast] at hagree
            exact hagree.elim
        | error d t' =>
            rw [hslow, hfast] at hagree
            rw [hslow] at hsound
            obtain hsame | hfalse := hagree
            · exact Or.inl ⟨hsame, hsound⟩
            · exact hfalse.elim
  case literal =>
    exact fun symbol => Agree.self hsame (fun s hs => literal_sound symbol hs) fun _ _ h => h
  case copy =>
    exact fun len dist => Agree.self hsame (fun s hs => copy_sound len dist hs) fun _ _ h => h
  case align => exact Agree.self hsame (fun s hs => align_sound hs) fun _ _ h => h
  case storedLength => exact Agree.self hsame (fun s hs => storedLength_sound hs) fun _ _ h => h
  case store => exact fun len => Agree.self hsame (fun s hs => store_sound len hs) fun _ _ h => h

/-- The rounds were enough: what `puff` fails with is one of its return codes. -/
theorem inflate_known {dest : Option Nat} {source : List Bytef} {e : Int} {s : State}
    (h : inflate true dest source = .error e s) : Known e := by
  have hspends := (blockLoop_spends (Nat.lt_succ_self (start dest source).left)).spent
    (start dest source) (Nat.le_refl _)
  change Program.SpentAt State.left Known 0 _ (inflate true dest source) at hspends
  rw [h] at hspends
  exact hspends

theorem inflate_ne_three {dest : Option Nat} {source : List Bytef} {e : Int} {s : State}
    (h : inflate true dest source = .error e s) : e ≠ 3 := by
  rintro rfl
  exact absurd (inflate_known h) (by decide)

/-- Both versions end the same way, within the buffers. -/
theorem inflate_cases (dest : Option Nat) (source : List Bytef) :
    (∃ s, inflate true dest source = .ok () s ∧ inflate false dest source = .ok () s ∧
        s.Sound dest source) ∨
      ∃ e s t, inflate true dest source = .error e s ∧ inflate false dest source = .error e t ∧
        SameFailure e s e t ∧ s.Sound dest source := by
  have hagree := inflate_agree (steps_slow dest source) ⟨rfl, start_sound dest source⟩
  cases hslow : inflate true dest source with
  | ok a s =>
      cases hfast : inflate false dest source with
      | ok b t =>
          rw [hslow, hfast] at hagree
          obtain ⟨-, rfl, hsound⟩ := hagree
          exact Or.inl ⟨t, rfl, rfl, hsound⟩
      | error d t =>
          rw [hslow, hfast] at hagree
          exact hagree.elim
  | error e s =>
      have hthree := inflate_ne_three hslow
      cases hfast : inflate false dest source with
      | ok b t =>
          rw [hslow, hfast] at hagree
          exact absurd hagree hthree
      | error d t =>
          rw [hslow, hfast] at hagree
          obtain ⟨hsame, hsound⟩ | hX := hagree
          · obtain rfl := hsame.1
            exact Or.inr ⟨e, s, t, rfl, rfl, hsame, hsound⟩
          · exact absurd hX hthree

theorem finish_inflate (slow : Bool) (dest : Option Nat) (source : List Bytef) :
    finish (inflate slow dest source) = finish (inflate true dest source) := by
  cases slow with
  | true => rfl
  | false =>
      obtain ⟨s, hslow, hfast, -⟩ | ⟨e, s, t, hslow, hfast, ⟨-, hout, houtcnt, hincnt⟩, -⟩ :=
        inflate_cases dest source
      · rw [hslow, hfast]
      · rw [hslow, hfast, finish, finish, hout, houtcnt]
        by_cases hle : e ≤ 0
        · rw [hincnt hle]
        · rw [if_neg hle, if_neg hle]

/-- The faster `decode` changes nothing in what `puff` returns, writes and reads. -/
theorem puff_slow_eq_fast (dest : Option Nat) (source : List Bytef) :
    puff true dest source = puff false dest source :=
  (finish_inflate false dest source).symm

structure Result.Within (dest : Option Nat) (source : List Bytef) (r : Result) : Prop where
  known : r.err = 0 ∨ Known r.err
  room : ∀ n, dest = some n → r.out.length ≤ n
  counted : dest = none → r.out = []
  lengths : ∀ outcnt incnt, r.lengths = some (outcnt, incnt) →
    incnt ≤ source.length ∧ (dest ≠ none → outcnt = r.out.length)
  updated : r.lengths = none ↔ r.err = 1 ∨ r.err = 2

theorem State.Within.lengths {dest : Option Nat} {source : List Bytef} {s : State}
    (hs : s.Within dest source) :
    s.incnt ≤ source.length ∧ (dest ≠ none → s.outcnt = s.out.length) := by
  refine ⟨?_, ?_⟩
  · have := hs.total
    omega
  · intro hdest
    obtain ⟨n, hn⟩ := Option.ne_none_iff_exists'.mp hdest
    exact (hs.written n hn).1.symm

/-- `puff` comes to an end with one of its return codes, never writes past the room it is
given or at all when it only counts, reads no more than there is, and updates the lengths
unless input or room was wanting. -/
theorem puff_within (slow : Bool) (dest : Option Nat) (source : List Bytef) :
    (puff slow dest source).Within dest source := by
  rw [puff, finish_inflate]
  obtain ⟨s, hslow, -, hsound⟩ | ⟨e, s, -, hslow, -, -, hsound⟩ := inflate_cases dest source
  · rw [hslow, finish]
    refine ⟨Or.inl rfl, ?_, hsound.within.counted, ?_, ?_⟩
    · intro n hn
      obtain ⟨hlen, hle⟩ := hsound.within.written n hn
      exact hlen.le.trans hle
    · intro outcnt incnt h
      cases h
      exact hsound.within.lengths
    · simp
  · have hknown := inflate_known hslow
    rw [hslow, finish]
    refine ⟨Or.inr hknown, ?_, hsound.within.counted, ?_, ?_⟩
    · intro n hn
      obtain ⟨hlen, hle⟩ := hsound.within.written n hn
      exact hlen.le.trans hle
    · intro outcnt incnt h
      dsimp only at h
      split at h
      · cases h
        exact hsound.within.lengths
      · cases h
    · obtain ⟨hge, hle, hne⟩ := hknown
      dsimp only
      split
      · simp only [reduceCtorEq, false_iff]
        omega
      · simp only [true_iff]
        omega

end Puff
