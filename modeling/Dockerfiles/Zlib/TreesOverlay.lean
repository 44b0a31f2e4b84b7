import Dockerfiles.Zlib.TreesFlush

/-! # The overlay

`d_buf` and `l_buf` lie in `pending_buf`, so that a block is written over the entries that
it is made of. Where no entry is reached before it is read, what is sent is what was
tallied; `compress_block` asserts this, and nothing else ensures it.
-/

namespace Trees

open Zlib (Bytef)

variable {flushed litBufsize lx : Nat} {ltree dtree : Tree} {tallied : List Tally} {s : Out}

/-- What is pending ends before the first entry, so that entering one changes nothing. -/
theorem enter_of_le (h : s.pending.length ≤ flushed + litBufsize) (lx : Nat) (t : Tally) :
    enter flushed litBufsize lx t s = s := by
  have hset : ∀ i v, litBufsize ≤ i →
      s.pending.set (flushed + i) (BitVec.ofNat 8 v) = s.pending :=
    fun i v hi => List.set_eq_of_length_le (by omega)
  rw [enter]
  dsimp only
  rw [hset _ _ (by omega), hset _ _ (by omega), hset _ _ (by omega)]

theorem overlaid_of_le {i : Nat} (h : s.pending.length ≤ flushed + i) (old : Nat) :
    overlaid flushed i old s = old := by
  rw [overlaid, List.getElem?_eq_none h]

/-- An entry that what is pending has not reached is read as it was written. -/
theorem readTally_of_le (h : s.pending.length ≤ flushed + litBufsize + 2 * lx)
    (hlx : lx < litBufsize) (t : Tally) : readTally flushed litBufsize lx t s = t := by
  rw [readTally, overlaid_of_le (by omega), overlaid_of_le (by omega), overlaid_of_le (by omega),
    Nat.mod_add_div]

/-- In every round of `compress_block`, from the entry `lx` on, the entry is in the arrays,
and what is pending ends before it. -/
def Ahead (flushed litBufsize : Nat) (ltree dtree : Tree) : Nat → List Tally → Out → Prop
  | _, [], _ => True
  | lx, t :: tallied, s =>
      (lx < litBufsize ∧ s.pending.length ≤ flushed + litBufsize + 2 * lx) ∧
        Ahead flushed litBufsize ltree dtree (lx + 1) tallied (compressTally ltree dtree s t)

instance Ahead.decidable (flushed litBufsize : Nat) (ltree dtree : Tree) :
    ∀ lx tallied s, Decidable (Ahead flushed litBufsize ltree dtree lx tallied s)
  | _, [], _ => inferInstanceAs (Decidable True)
  | lx, t :: tallied, s =>
      have := Ahead.decidable flushed litBufsize ltree dtree (lx + 1) tallied
        (compressTally ltree dtree s t)
      inferInstanceAs (Decidable (_ ∧ _))

theorem compressLoop_of_ahead (h : Ahead flushed litBufsize ltree dtree lx tallied s) :
    compressLoop flushed litBufsize ltree dtree lx tallied s =
      tallied.foldl (compressTally ltree dtree) s := by
  induction tallied generalizing lx s with
  | nil => rfl
  | cons t tallied ih =>
      obtain ⟨⟨hlx, hle⟩, hrest⟩ := h
      rw [compressLoop, List.foldl_cons, readTally_of_le hle hlx]
      exact ih hrest

theorem compressBlock_of_ahead (h : Ahead flushed litBufsize ltree dtree 0 tallied s) :
    compressBlock flushed litBufsize tallied ltree dtree s = sendTallied tallied ltree dtree s := by
  rw [compressBlock, compressLoop_of_ahead h, sendTallied]

/-- The entries of a block are ahead of what is sent of it. -/
def Block.Clear (flushed litBufsize : Nat) (last : Bool) : Block → Out → Prop
  | .static tallied, s =>
      Ahead flushed litBufsize staticLtree staticDtree 0 tallied (sendHeader 1 last s)
  | .dynamic tallied ltree dtree blTree lcodes dcodes blcodes, s =>
      Ahead flushed litBufsize ltree dtree 0 tallied
        (sendAllTrees ltree dtree blTree lcodes dcodes blcodes (sendHeader 2 last s))
  | _, _ => True

instance Block.Clear.decidable (flushed litBufsize : Nat) (last : Bool) :
    ∀ (b : Block) (s : Out), Decidable (b.Clear flushed litBufsize last s)
  | .stored _, _ => inferInstanceAs (Decidable True)
  | .static _, _ => Ahead.decidable ..
  | .dynamic .., _ => Ahead.decidable ..
  | .align, _ => inferInstanceAs (Decidable True)

/-- Then what is sent is what was tallied. -/
theorem Block.Clear.sendBlock {last : Bool} {b : Block}
    (h : b.Clear flushed litBufsize last s) :
    sendBlock flushed litBufsize last b s = b.send last s := by
  cases b with
  | stored buf => rfl
  | static tallied => exact compressBlock_of_ahead h
  | dynamic tallied ltree dtree blTree lcodes dcodes blcodes => exact compressBlock_of_ahead h
  | align => rfl

/-- With the static trees a match may take 31 bits where its entry frees 16: in the
smallest buffers, the one behind 70 of them is read with another distance. -/
example :
    let sent := (List.replicate 70 ⟨20000, 128⟩).foldl (compressTally staticLtree staticDtree)
      (sendHeader 1 true trInit)
    readTally 0 (1 <<< 7) 70 ⟨20000, 128⟩ sent ≠ ⟨20000, 128⟩ := by
  decide +kernel

end Trees
