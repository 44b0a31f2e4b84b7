import Dockerfiles.Zlib.PuffBuffers

/-! # The modes of `puff`

More input makes no difference once `puff` has come to an end, and the mode that only
counts finds the size of the output.
-/

namespace Puff

open Zlib (Bytef)
open Program (Agree leaves mapState)

/-! ## More input -/

def State.extend (more : List Bytef) (s : State) : State := { s with input := s.input ++ more }

theorem load_append {need : Nat} {input input' more : List Bytef}
    {incnt val bitcnt incnt' val' bitcnt' : Nat}
    (h : load need input incnt val bitcnt = some (input', incnt', val', bitcnt')) :
    load need (input ++ more) incnt val bitcnt = some (input' ++ more, incnt', val', bitcnt') := by
  induction input generalizing incnt val bitcnt with
  | nil =>
      by_cases hlt : bitcnt < need
      · rw [load_nil hlt] at h
        cases h
      · rw [load_of_le (by omega)] at h ⊢
        cases h
        rfl
  | cons b input ih =>
      by_cases hlt : bitcnt < need
      · rw [load_cons hlt] at h
        rw [List.cons_append, load_cons hlt]
        exact ih h
      · rw [load_of_le (by omega)] at h ⊢
        cases h
        rfl

theorem bits_extend (more : List Bytef) (need : Nat) (s : State) :
    bits need (s.extend more) = mapState (State.extend more) (bits need s) ∨
      bits need s = .error 2 s := by
  cases hload : load need s.input s.incnt s.bitbuf s.bitcnt with
  | none =>
      right
      rw [bits, hload]
  | some loaded =>
      obtain ⟨input', incnt', val', bitcnt'⟩ := loaded
      left
      rw [bits, bits, hload, State.extend, load_append hload]
      rfl

theorem put_extend (more : List Bytef) (len : Nat) (bytes : List Bytef → List Bytef) (s : State) :
    put len bytes (s.extend more) = mapState (State.extend more) (put len bytes s) := by
  obtain ⟨out, room, outcnt, input, incnt, bitbuf, bitcnt⟩ := s
  cases room with
  | none => rfl
  | some outlen =>
      rw [State.extend, put, put]
      dsimp only
      split
      · rfl
      · rfl

theorem literal_extend (more : List Bytef) (symbol : Nat) (s : State) :
    literal symbol (s.extend more) = mapState (State.extend more) (literal symbol s) := by
  obtain ⟨out, room, outcnt, input, incnt, bitbuf, bitcnt⟩ := s
  cases room with
  | none => rfl
  | some outlen =>
      rw [State.extend, literal, literal]
      dsimp only
      split
      · rfl
      · rfl

theorem copy_extend (more : List Bytef) (len dist : Nat) (s : State) :
    copy len dist (s.extend more) = mapState (State.extend more) (copy len dist s) := by
  rw [copy, copy, put_extend]
  by_cases hfar : s.outcnt < dist
  · rw [if_pos hfar]
    exact if_pos hfar
  · rw [if_neg hfar]
    exact if_neg hfar

theorem storedLength_extend (more : List Bytef) (s : State) :
    storedLength (s.extend more) = mapState (State.extend more) (storedLength s) ∨
      storedLength s = .error 2 s := by
  obtain ⟨out, room, outcnt, input, incnt, bitbuf, bitcnt⟩ := s
  match input with
  | [] => exact Or.inr rfl
  | [_] => exact Or.inr rfl
  | [_, _] => exact Or.inr rfl
  | [_, _, _] => exact Or.inr rfl
  | b0 :: b1 :: b2 :: b3 :: input =>
      left
      rw [State.extend, storedLength, storedLength]
      dsimp only [List.cons_append]
      split
      · rfl
      · split
        · rfl
        · rfl

theorem store_extend (more : List Bytef) (len : Nat) (s : State) :
    store len (s.extend more) = mapState (State.extend more) (store len s) ∨
      store len s = .error 2 s := by
  by_cases hle : len ≤ s.input.length
  · left
    have htake : (s.input ++ more).take len = s.input.take len :=
      List.take_append_of_le_length hle
    have hdrop : (s.input ++ more).drop len = s.input.drop len ++ more :=
      List.drop_append_of_le_length hle
    have hlong : ¬ (s.extend more).input.length < len := by
      show ¬ (s.input ++ more).length < len
      rw [List.length_append]
      omega
    rw [store, store, if_neg hlong, if_neg (by omega)]
    show EStateM.bind (put len (· ++ (s.input ++ more).take len)) _ _ =
      mapState _ (EStateM.bind (put len _) _ s)
    rw [EStateM.bind, EStateM.bind, htake, put_extend]
    obtain ⟨outlen, -, -, hput⟩ | ⟨outlen, -, -, hput⟩ | ⟨-, hput⟩ :=
      put_cases len (· ++ s.input.take len) s
    all_goals
      rw [hput]
      simp only [mapState, skip, State.extend, hdrop]
  · right
    rw [store, if_pos (by omega)]

/-- Where the input does not end too early, more of it makes no difference. -/
theorem steps_extend (more : List Bytef) :
    Steps true true (fun s t => t = s.extend more ∧ True)
      (fun e s d t => e = d ∧ t = s.extend more) (fun e _ => e = 2 ∨ e = 3) := by
  have hsame : ∀ (e : Int) (s : State), True → e = e ∧ s.extend more = s.extend more :=
    fun _ _ _ => ⟨rfl, rfl⟩
  have hbits : ∀ need, Agree (fun s t => t = s.extend more ∧ True)
      (fun e s d t => e = d ∧ t = s.extend more) (fun e _ => e = 2 ∨ e = 3)
      (bits need) (bits need) := by
    intro need
    refine Agree.simulate hsame (fun s _ => ?_) fun _ _ h => h
    obtain h | h := bits_extend more need s
    · exact Or.inl ⟨h, trivial⟩
    · exact Or.inr ⟨2, s, h, Or.inl rfl⟩
  have hfails : ∀ e : Int, e < 0 → ∀ s t, t = State.extend more s ∧ True →
      (e = e ∧ t = s.extend more) ∨ (e = 2 ∨ e = 3) := by
    rintro e - s t ⟨rfl, -⟩
    exact Or.inl ⟨rfl, rfl⟩
  constructor
  case left_le =>
    rintro s t ⟨rfl, -⟩
    show s.bitcnt + 8 * s.input.length ≤ s.bitcnt + 8 * (s.input ++ more).length
    rw [List.length_append]
    omega
  case fails => exact hfails
  case rounds => exact fun _ => Or.inr rfl
  case bits => exact hbits
  case decode => exact fun h => decodeSlow_agree (hbits 1) (hfails (-10) (by decide)) h
  case literal =>
    intro symbol
    exact Agree.simulate hsame (fun s _ => Or.inl ⟨literal_extend more symbol s, trivial⟩)
      fun _ _ h => h
  case copy =>
    intro len dist
    exact Agree.simulate hsame (fun s _ => Or.inl ⟨copy_extend more len dist s, trivial⟩)
      fun _ _ h => h
  case align => exact Agree.simulate hsame (fun s _ => Or.inl ⟨rfl, trivial⟩) fun _ _ h => h
  case storedLength =>
    refine Agree.simulate hsame (fun s _ => ?_) fun _ _ h => h
    obtain h | h := storedLength_extend more s
    · exact Or.inl ⟨h, trivial⟩
    · exact Or.inr ⟨2, s, h, Or.inl rfl⟩
  case store =>
    intro len
    refine Agree.simulate hsame (fun s _ => ?_) fun _ _ h => h
    obtain h | h := store_extend more len s
    · exact Or.inl ⟨h, trivial⟩
    · exact Or.inr ⟨2, s, h, Or.inl rfl⟩

/-- What `puff` says of a source, it says of every longer one, unless input was wanting: a
deflate stream shows where it ends. -/
theorem puff_append {slow : Bool} {dest : Option Nat} {source : List Bytef} (more : List Bytef)
    (h : (puff slow dest source).err ≠ 2) :
    puff slow dest (source ++ more) = puff slow dest source := by
  have hagree := @inflate_agree _ _ _ _ _ (steps_extend more) dest dest source (source ++ more)
    ⟨rfl, trivial⟩
  rw [puff, finish_inflate] at h
  rw [puff, puff, finish_inflate, finish_inflate slow]
  cases hshort : inflate true dest source with
  | ok a s =>
      cases hlong : inflate true dest (source ++ more) with
      | ok b t =>
          rw [hshort, hlong] at hagree
          obtain ⟨-, rfl, -⟩ := hagree
          rfl
      | error d t =>
          rw [hshort, hlong] at hagree
          exact hagree.elim
  | error e s =>
      have hthree := inflate_ne_three hshort
      rw [hshort] at h
      have htwo : e ≠ 2 := h
      cases hlong : inflate true dest (source ++ more) with
      | ok b t =>
          rw [hshort, hlong] at hagree
          rcases hagree with hX | hX
          · exact absurd hX htwo
          · exact absurd hX hthree
      | error d t =>
          rw [hshort, hlong] at hagree
          obtain ⟨rfl, rfl⟩ | hX | hX := hagree
          · rfl
          · exact absurd hX htwo
          · exact absurd hX hthree

/-- A stored block with a byte after it. -/
theorem puff_append_stored :
    (puff false none [1, 1, 0, 254, 255, 65]).err ≠ 2 ∧
      puff false none ([1, 1, 0, 254, 255, 65] ++ [7]) = puff false none [1, 1, 0, 254, 255, 65] :=
  ⟨by decide, puff_append [7] (by decide)⟩

/-! ## Counting -/

/-- The state when `out` is `NIL`. -/
def State.counting (s : State) : State := { s with out := [], room := none }

theorem put_outcnt (len : Nat) (bytes : List Bytef → List Bytef) (t : State) :
    t.outcnt ≤ (leaves (put len bytes t)).outcnt := by
  obtain ⟨outlen, -, -, hput⟩ | ⟨outlen, -, -, hput⟩ | ⟨-, hput⟩ := put_cases len bytes t
  · rw [hput]
    exact Nat.le_refl t.outcnt
  · rw [hput]
    exact Nat.le_add_right t.outcnt len
  · rw [hput]
    exact Nat.le_add_right t.outcnt len

theorem bits_outcnt (need : Nat) (t : State) : (leaves (bits need t)).outcnt = t.outcnt := by
  rw [bits]
  cases load need t.input t.incnt t.bitbuf t.bitcnt with
  | none => rfl
  | some loaded => rfl

theorem literal_outcnt (symbol : Nat) (t : State) :
    t.outcnt ≤ (leaves (literal symbol t)).outcnt := by
  rw [literal]
  cases t.room with
  | none => exact Nat.le_succ t.outcnt
  | some outlen =>
      dsimp only
      split
      · exact Nat.le_refl t.outcnt
      · exact Nat.le_succ t.outcnt

theorem copy_outcnt (len dist : Nat) (t : State) :
    t.outcnt ≤ (leaves (copy len dist t)).outcnt := by
  rw [copy]
  split
  · exact Nat.le_refl t.outcnt
  · exact put_outcnt len (copyLoop dist len) t

theorem storedLength_outcnt (t : State) : (leaves (storedLength t)).outcnt = t.outcnt := by
  rw [storedLength]
  split
  · dsimp only
    split
    · rfl
    · split
      · rfl
      · rfl
  · rfl

theorem store_outcnt (len : Nat) (t : State) : t.outcnt ≤ (leaves (store len t)).outcnt := by
  rw [store]
  split
  · exact Nat.le_refl t.outcnt
  · have hput := put_outcnt len (· ++ t.input.take len) t
    rw [Program.leaves_bind]
    cases h : put len (· ++ t.input.take len) t with
    | ok u t' =>
        rw [h] at hput
        exact hput
    | error e t' =>
        rw [h] at hput
        exact hput

/-- `put` counts what it would write. -/
theorem put_counting {m len : Nat} {bytes : List Bytef → List Bytef} {s : State}
    (hroom : s.room = some m) :
    put len bytes s.counting = mapState State.counting (put len bytes s) ∨
      put len bytes s = .error 1 s ∧ m < (leaves (put len bytes s.counting)).outcnt := by
  obtain ⟨outlen, h, hfull, hput⟩ | ⟨outlen, -, -, hput⟩ | ⟨hnone, -⟩ := put_cases len bytes s
  · rw [hroom] at h
    cases h
    exact Or.inr ⟨hput, hfull⟩
  · rw [hput]
    exact Or.inl rfl
  · rw [hroom] at hnone
    cases hnone

theorem storedLength_counting (s : State) :
    storedLength s.counting = mapState State.counting (storedLength s) := by
  obtain ⟨out, room, outcnt, input, incnt, bitbuf, bitcnt⟩ := s
  match input with
  | [] => rfl
  | [_] => rfl
  | [_, _] => rfl
  | [_, _, _] => rfl
  | b0 :: b1 :: b2 :: b3 :: input =>
      rw [State.counting, storedLength, storedLength]
      dsimp only
      split
      · rfl
      · split
        · rfl
        · rfl

theorem store_counting {m len : Nat} {s : State} (hroom : s.room = some m) :
    store len s.counting = mapState State.counting (store len s) ∨
      store len s = .error 1 s ∧ m < (leaves (store len s.counting)).outcnt := by
  by_cases hle : s.input.length < len
  · left
    rw [store, store, if_pos hle]
    exact if_pos hle
  · have hle' : ¬ s.counting.input.length < len := hle
    rw [store, store, if_neg hle, if_neg hle', Program.leaves_bind]
    show EStateM.bind (put len _) _ _ = mapState _ (EStateM.bind (put len _) _ s) ∨
      EStateM.bind (put len _) _ s = _ ∧ _
    rw [EStateM.bind, EStateM.bind]
    obtain ⟨outlen, h, hfull, hput⟩ | ⟨outlen, -, -, hput⟩ | ⟨hnone, -⟩ :=
      put_cases len (· ++ s.input.take len) s
    · rw [hroom] at h
      cases h
      rw [hput]
      exact Or.inr ⟨rfl, hfull⟩
    · rw [hput]
      exact Or.inl rfl
    · rw [hroom] at hnone
      cases hnone

/-- Counting goes the way writing goes, until the room is used up. -/
theorem steps_counting (m : Nat) (source : List Bytef) :
    Steps true true (fun s t => t = s.counting ∧ s.Sound (some m) source)
      (fun e s d t => e = d ∧ t = s.counting ∧ s.Sound (some m) source)
      (fun e t => e = 3 ∨ (e = 1 ∧ m < t.outcnt)) := by
  have hsame : ∀ (e : Int) (s : State), s.Sound (some m) source →
      e = e ∧ s.counting = s.counting ∧ s.Sound (some m) source := fun _ _ hs => ⟨rfl, rfl, hs⟩
  -- what is counted past the room stays counted
  have hkept : ∀ {α : Type} {g : Reader α}, (∀ t, t.outcnt ≤ (leaves (g t)).outcnt) →
      ∀ (e : Int) (t : State), (e = 3 ∨ (e = 1 ∧ m < t.outcnt)) →
        e = 3 ∨ (e = 1 ∧ m < (leaves (g t)).outcnt) := by
    rintro α g hg e t (h | ⟨h, hlt⟩)
    · exact Or.inl h
    · exact Or.inr ⟨h, Nat.lt_of_lt_of_le hlt (hg t)⟩
  have hbits : ∀ need, Agree (fun s t => t = s.counting ∧ s.Sound (some m) source)
      (fun e s d t => e = d ∧ t = s.counting ∧ s.Sound (some m) source)
      (fun e t => e = 3 ∨ (e = 1 ∧ m < t.outcnt)) (bits need) (bits need) := by
    intro need
    refine Agree.simulate hsame (fun s hs => Or.inl ⟨?_, bits_sound need hs⟩)
      (hkept fun t => (bits_outcnt need t).ge)
    rw [bits, bits, State.counting]
    dsimp only
    cases load need s.input s.incnt s.bitbuf s.bitcnt with
    | none => rfl
    | some loaded => rfl
  have hfails : ∀ e : Int, e < 0 → ∀ s t, t = State.counting s ∧ s.Sound (some m) source →
      (e = e ∧ t = s.counting ∧ s.Sound (some m) source) ∨ (e = 3 ∨ (e = 1 ∧ m < t.outcnt)) := by
    rintro e - s t ⟨rfl, hs⟩
    exact Or.inl ⟨rfl, rfl, hs⟩
  constructor
  case left_le =>
    rintro s t ⟨rfl, -⟩
    exact Nat.le_refl s.left
  case fails => exact hfails
  case rounds => exact fun _ => Or.inl rfl
  case bits => exact hbits
  case decode => exact fun h => decodeSlow_agree (hbits 1) (hfails (-10) (by decide)) h
  case literal =>
    intro symbol
    refine Agree.simulate hsame (fun s hs => ?_) (hkept (literal_outcnt symbol))
    have hcount : literal symbol s.counting = put 1 (· ++ [BitVec.ofNat 8 symbol]) s.counting := rfl
    have hsound := literal_sound symbol hs
    rw [hcount]
    rw [literal_eq_put hs.within] at hsound ⊢
    obtain h | ⟨h, hlt⟩ := put_counting hs.within.room
    · exact Or.inl ⟨h, hsound⟩
    · exact Or.inr ⟨1, s, h, Or.inr ⟨rfl, hlt⟩⟩
  case copy =>
    intro len dist
    refine Agree.simulate hsame (fun s hs => ?_) (hkept (copy_outcnt len dist))
    have hsound := copy_sound len dist hs
    by_cases hfar : s.outcnt < dist
    · refine Or.inl ⟨?_, hsound⟩
      rw [copy, copy, if_pos hfar]
      exact if_pos hfar
    · have hfar' : ¬ s.counting.outcnt < dist := hfar
      rw [copy, if_neg hfar] at hsound
      rw [copy, copy, if_neg hfar, if_neg hfar']
      obtain h | ⟨h, hlt⟩ := put_counting hs.within.room
      · exact Or.inl ⟨h, hsound⟩
      · exact Or.inr ⟨1, s, h, Or.inr ⟨rfl, hlt⟩⟩
  case align =>
    exact Agree.simulate hsame (fun s hs => Or.inl ⟨rfl, align_sound hs⟩)
      (hkept fun t => Nat.le_refl t.outcnt)
  case storedLength =>
    exact Agree.simulate hsame
      (fun s hs => Or.inl ⟨storedLength_counting s, storedLength_sound hs⟩)
      (hkept fun t => (storedLength_outcnt t).ge)
  case store =>
    intro len
    refine Agree.simulate hsame (fun s hs => ?_) (hkept (store_outcnt len))
    obtain h | ⟨h, hlt⟩ := store_counting hs.within.room
    · exact Or.inl ⟨h, store_sound len hs⟩
    · exact Or.inr ⟨1, s, h, Or.inr ⟨rfl, hlt⟩⟩

theorem finish_error_lengths {e : Int} {s : State} {outcnt incnt : Nat}
    (h : (finish (.error e s)).lengths = some (outcnt, incnt)) :
    e ≤ 0 ∧ s.outcnt = outcnt ∧ s.incnt = incnt := by
  rw [finish] at h
  dsimp only at h
  split at h
  · next hle =>
      cases h
      exact ⟨hle, rfl, rfl⟩
  · cases h

/-- Without `out`, `puff` finds the size of the output: with that much room or more it does
the same with `out`, and with less the room is used up. -/
theorem puff_counts {slow : Bool} {source : List Bytef} {outcnt incnt : Nat}
    (h : (puff slow none source).lengths = some (outcnt, incnt)) (outlen : Nat) :
    if outcnt ≤ outlen then
      (puff slow (some outlen) source).err = (puff slow none source).err ∧
        (puff slow (some outlen) source).lengths = some (outcnt, incnt)
    else (puff slow (some outlen) source).err = 1 := by
  have hagree := @inflate_agree _ _ _ _ _ (steps_counting outlen source) (some outlen) none source
    source ⟨rfl, start_sound (some outlen) source⟩
  rw [puff, finish_inflate] at h
  rw [puff, puff, finish_inflate, finish_inflate slow none]
  cases hwrite : inflate true (some outlen) source with
  | ok a s =>
      cases hcount : inflate true none source with
      | ok b t =>
          rw [hwrite, hcount] at hagree
          obtain ⟨-, rfl, hsound⟩ := hagree
          have hle : s.counting.outcnt ≤ outlen := (hsound.within.written outlen rfl).2
          rw [hcount] at h
          cases h
          rw [if_pos hle]
          exact ⟨rfl, rfl⟩
      | error d t =>
          rw [hwrite, hcount] at hagree
          exact hagree.elim
  | error e s =>
      have hthree := inflate_ne_three hwrite
      cases hcount : inflate true none source with
      | ok b t =>
          rw [hwrite, hcount] at hagree
          rw [hcount] at h
          cases h
          rcases hagree with hX | ⟨rfl, hlt⟩
          · exact absurd hX hthree
          · rw [if_neg (by omega)]
            rfl
      | error d t =>
          rw [hwrite, hcount] at hagree
          rw [hcount] at h
          obtain ⟨hle, houtcnt, hincnt⟩ := finish_error_lengths h
          obtain ⟨rfl, rfl, hsound⟩ | hX | ⟨rfl, hlt⟩ := hagree
          · have hroom : s.counting.outcnt ≤ outlen := (hsound.within.written outlen rfl).2
            rw [← houtcnt, ← hincnt, if_pos hroom]
            exact ⟨rfl, if_pos hle⟩
          · exact absurd hX hthree
          · rw [if_neg (by omega)]
            rfl

/-- A stored block of one byte, with room for it and without. -/
theorem puff_counts_stored :
    (puff false none [1, 1, 0, 254, 255, 65]).lengths = some (1, 6) ∧
      (if 1 ≤ 0 then
        (puff false (some 0) [1, 1, 0, 254, 255, 65]).err =
            (puff false none [1, 1, 0, 254, 255, 65]).err ∧
          (puff false (some 0) [1, 1, 0, 254, 255, 65]).lengths = some (1, 6)
      else (puff false (some 0) [1, 1, 0, 254, 255, 65]).err = 1) :=
  ⟨by decide, puff_counts (by decide) 0⟩

end Puff
