import Dockerfiles.Zlib.TreesLengths

/-! # Trees are complete codes

Whatever the frequencies are, `build_tree` leaves the words of a complete code whose
lengths are allowed, and in which each element that occurs has a word.
-/

namespace Trees

open Puff (entry entry_set)
open Canonical (first index count len IsComplete)

/-- What `build_tree` needs of a descriptor. -/
structure StaticDesc.Valid (desc : StaticDesc) : Prop where
  elems_ge : 3 ≤ desc.elems
  elems_le : desc.elems ≤ 2 ^ desc.maxLength
  pos : 1 ≤ desc.maxLength
  le : desc.maxLength ≤ maxBits

theorem staticLDesc_valid : staticLDesc.Valid := ⟨by decide, by decide, by decide, by decide⟩

theorem staticDDesc_valid : staticDDesc.Valid := ⟨by decide, by decide, by decide, by decide⟩

theorem staticBlDesc_valid : staticBlDesc.Valid := ⟨by decide, by decide, by decide, by decide⟩

/-! ## Counting lengths -/

theorem take_eq_map {dl : List Nat} {codes : Nat} (h : codes ≤ dl.length) :
    dl.take codes = (List.range codes).map (entry dl) := by
  refine List.ext_getElem ?_ ?_
  · rw [List.length_take, List.length_map, List.length_range]
    omega
  · intro i hi hi'
    rw [List.length_map, List.length_range] at hi'
    rw [List.getElem_take, List.getElem_map, List.getElem_range, entry_of_lt (by omega)]

/-- Elements that are not in the heap have no length. -/
theorem count_take_codes {heap dl : List Nat} {codes : Nat} (hnodup : heap.Nodup)
    (hlt : ∀ x ∈ heap, x < codes) (hcodes : codes ≤ dl.length)
    (hzero : ∀ y, y < codes → y ∉ heap → entry dl y = 0) {l : Nat} (hl : 1 ≤ l) :
    count (dl.take codes) l = heap.countP fun x => decide (entry dl x = l) := by
  have hin : ((List.range codes).filter (· ∈ heap)).Perm heap := by
    refine (List.perm_ext_iff_of_nodup (List.nodup_range.filter _) hnodup).mpr fun x => ?_
    rw [List.mem_filter, List.mem_range, decide_eq_true_iff]
    exact ⟨fun h => h.2, fun h => ⟨hlt x h, h⟩⟩
  have hout : (((List.range codes).filter fun x => !decide (x ∈ heap)).countP
      fun x => decide (entry dl x = l)) = 0 := by
    refine List.countP_eq_zero.mpr fun x hx => ?_
    rw [List.mem_filter, List.mem_range, Bool.not_eq_true', decide_eq_false_iff_not] at hx
    rw [decide_eq_true_iff, hzero x hx.1 hx.2]
    omega
  have hall := (List.filter_append_perm (fun x => decide (x ∈ heap)) (List.range codes)).countP_eq
    fun x => decide (entry dl x = l)
  rw [List.countP_append, hin.countP_eq, hout, Nat.add_zero] at hall
  rw [count, take_eq_map hcodes, List.count_eq_countP, List.countP_map, hall]
  exact List.countP_congr fun x _ => by simp

theorem count_map_eq (heap dl : List Nat) (l : Nat) :
    count (heap.map (entry dl)) l = heap.countP fun x => decide (entry dl x = l) := by
  rw [count, List.count_eq_countP, List.countP_map]
  exact List.countP_congr fun x _ => by simp

theorem lengthCount_eq {heap dl : List Nat} {codes : Nat} (hlt : ∀ x ∈ heap, x < codes) (l : Nat) :
    lengthCount codes heap dl l = heap.countP fun x => decide (entry dl x = l) := by
  refine List.countP_congr fun x hx => ?_
  rw [decide_eq_true_iff, decide_eq_true_iff]
  exact ⟨fun h => h.2, fun h => ⟨hlt x hx, h⟩⟩

/-- After the first pass, the counts take the overflow more than the room. -/
theorem Spreads.excess {desc : StaticDesc} {codes node : Nat} {heap dl : List Nat} {p : Pass}
    (h : Spreads desc codes heap dl node p) (hlong : 2 ≤ heap.length)
    (hlt : ∀ x ∈ heap, x < codes) (hm : 1 ≤ desc.maxLength) :
    Excess desc.maxLength heap.length p.blCount p.overflow := by
  have hcount : ∀ l, 1 ≤ l → entry p.blCount l = count (heap.map (entry p.dl)) l := by
    intro l hl
    rw [h.blCount l hl, lengthCount_eq hlt, count_map_eq]
  have hbounds : ∀ l ∈ heap.map (entry p.dl), 1 ≤ l ∧ l ≤ desc.maxLength := by
    intro l hl
    refine ⟨?_, h.balanced.le l hl⟩
    obtain ⟨x, hx, rfl⟩ := List.mem_map.mp hl
    exact h.pos hlong x hx
  refine ⟨h.blLength, h.blZero, ?_, ?_, ?_, ?_⟩
  · intro l hl
    rw [hcount l (by omega)]
    exact List.count_eq_zero.mpr fun hmem => absurd (hbounds l hmem).2 (by omega)
  · rw [Canonical.first_congr fun l hl _ => hcount l hl, Canonical.first_count_eq_room hbounds,
      h.balanced.room]
  · rw [Canonical.index_congr fun l hl _ => hcount l hl, Canonical.index_count_eq_length hbounds,
      List.length_map]
  · rw [hcount _ hm]
    exact h.balanced.deep

/-! ## The whole -/

/-- The elements have lengths that make a complete code, and `blCount` counts them. -/
structure Sized (m elems : Nat) (heap dl blCount : List Nat) : Prop where
  bounds : ∀ x ∈ heap, 1 ≤ entry dl x ∧ entry dl x ≤ m
  zero : ∀ y, y < elems → y ∉ heap → entry dl y = 0
  counted : ∀ l, 1 ≤ l → entry blCount l = heap.countP fun x => decide (entry dl x = l)
  blZero : entry blCount 0 = 0
  full : first (entry blCount) (m + 1) = 2 ^ (m + 1)

theorem Sized.isComplete {m codes elems : Nat} {heap dl blCount : List Nat}
    (h : Sized m elems heap dl blCount) (hnodup : heap.Nodup) (hlt : ∀ x ∈ heap, x < codes)
    (helems : codes ≤ elems) (hcodes : codes ≤ dl.length) (hm : m ≤ maxBits) :
    IsComplete (dl.take codes) maxBits ∧
      (∀ l, 1 ≤ l → entry blCount l = count (dl.take codes) l) ∧
      (∀ n, len (dl.take codes) n ≤ m) ∧ ∀ x ∈ heap, len (dl.take codes) x ≠ 0 := by
  have hlen : ∀ n, n < codes → len (dl.take codes) n = entry dl n := by
    intro n hn
    rw [len, entry, List.getD_eq_getElem?_getD, List.getD_eq_getElem?_getD,
      List.getElem?_take_of_lt hn]
  have hcount : ∀ l, 1 ≤ l → entry blCount l = count (dl.take codes) l := by
    intro l hl
    rw [h.counted l hl, count_take_codes hnodup hlt hcodes (fun y hy => h.zero y (by omega)) hl]
  have hle : ∀ n, len (dl.take codes) n ≤ m := by
    intro n
    by_cases hn : n < codes
    · rw [hlen n hn]
      by_cases hx : n ∈ heap
      · exact (h.bounds n hx).2
      · rw [h.zero n (by omega) hx]
        exact Nat.zero_le m
    · have hnone : len (dl.take codes) n = 0 := by
        by_contra hne
        have := Canonical.lt_length_of_len_ne_zero _ hne
        rw [List.length_take] at this
        omega
      rw [hnone]
      exact Nat.zero_le m
  refine ⟨Canonical.isComplete_of_first hle ?_ hm, hcount, hle, ?_⟩
  · rw [← Canonical.first_congr fun l hl _ => hcount l hl]
    exact h.full
  · intro x hx
    rw [hlen x (hlt x hx)]
    have := (h.bounds x hx).1
    omega

/-- `gen_bitlen` sizes the elements. -/
theorem genBitlen_sized {desc : StaticDesc} (hdesc : desc.Valid) {b b' : Building} {root : Nat}
    {order : List Nat} (h : Merged desc b desc.elems b' root order) (hsorted : b.sorted = [])
    (hlong : 2 ≤ b.heap.length) (hnodup : b.heap.Nodup) (hlt : ∀ x ∈ b.heap, x < b.codes)
    (hcodes : b.codes ≤ desc.elems) (hlength : desc.elems ≤ b.tree.dl.length)
    (hzero : ∀ y, y < desc.elems → y ∉ b.heap → entry b.tree.dl y = 0)
    (htotal : b.heap.length ≤ 2 ^ desc.maxLength) :
    (genBitlen desc { b' with sorted := root :: b'.sorted }).dl.length = b.tree.dl.length ∧
      Sized desc.maxLength desc.elems b.heap
        (genBitlen desc { b' with sorted := root :: b'.sorted }).dl
        (genBitlen desc { b' with sorted := root :: b'.sorted }).blCount := by
  have hspreads := h.spreads b'.tree.fc b'.sizes
  have hexcess := hspreads.excess hlong hlt hdesc.pos
  have hkept : ∀ y, y < desc.elems → y ∉ b.heap →
      entry (order.foldl (firstPass desc b'.tree.fc b.codes)
        (passStart b'.tree.dl root b'.sizes)).dl y = 0 := by
    intro y hy hnot
    rw [hspreads.other y hy hnot, hzero y hy hnot]
  have hstart : genBitlen desc { b' with sorted := root :: b'.sorted } =
      let p := order.foldl (firstPass desc b'.tree.fc b.codes)
        (passStart b'.tree.dl root b'.sizes)
      if p.overflow = 0 then p
      else
        secondPass b'.tree.fc b.codes (moveAll desc p.overflow p.blCount) desc.maxLength
          (root :: order).reverse { p with blCount := moveAll desc p.overflow p.blCount } := by
    rw [genBitlen]
    dsimp only
    rw [h.sorted, hsorted, List.append_nil, h.codes]
    rfl
  rw [hstart]
  generalize order.foldl (firstPass desc b'.tree.fc b.codes)
    (passStart b'.tree.dl root b'.sizes) = p at *
  dsimp only
  by_cases hoverflow : p.overflow = 0
  · rw [if_pos hoverflow]
    rw [hoverflow] at hexcess
    refine ⟨hspreads.length, ?_, hkept, ?_, hexcess.zero, hexcess.first⟩
    · intro x hx
      exact ⟨hspreads.pos hlong x hx, hspreads.balanced.le _ (List.mem_map_of_mem hx)⟩
    · intro l hl
      rw [hspreads.blCount l hl, lengthCount_eq hlt]
  · rw [if_neg hoverflow]
    have heven := hexcess.moveAll hdesc.pos hdesc.le htotal
    -- the elements come once each in the order they were taken
    have hleaves : ((root :: order).reverse.filter (· < b.codes)).Perm b.heap := by
      have hfilter : b.heap.filter (· < b.codes) = b.heap :=
        List.filter_eq_self.mpr fun x hx => decide_eq_true (hlt x hx)
      have hperm := h.leaves
      rw [hfilter] at hperm
      exact ((List.reverse_perm _).filter _).trans hperm
    have hgiven := @secondPass_givenOut b'.tree.fc b.codes (moveAll desc p.overflow p.blCount)
      desc.maxLength (root :: order).reverse
      { p with blCount := moveAll desc p.overflow p.blCount }
      (by rw [heven.index, hleaves.length_eq]) (hleaves.nodup_iff.mpr hnodup)
      (by show b.codes ≤ p.dl.length; rw [hspreads.length]; omega)
    refine ⟨hgiven.length.trans hspreads.length, ?_, ?_, ?_, ?_, ?_⟩
    · exact fun x hx => hgiven.bounds x (hleaves.mem_iff.mpr hx)
    · intro y hy hnot
      rw [hgiven.other y fun hx => hnot (hleaves.mem_iff.mp hx)]
      exact hkept y hy hnot
    · intro l hl
      rw [secondPass_blCount, ← hleaves.countP_eq]
      by_cases hle : l ≤ desc.maxLength
      · exact (hgiven.count l hl hle).symm
      · refine (heven.above l (by omega)).trans (List.countP_eq_zero.mpr fun x hx => ?_).symm
        have := hgiven.bounds x hx
        rw [decide_eq_true_iff]
        omega
    · rw [secondPass_blCount]
      exact heven.zero
    · rw [secondPass_blCount]
      exact heven.first

theorem mergeLoop_fc_length (rounds node : Nat) (b : Building) :
    (mergeLoop rounds node b).tree.fc.length = b.tree.fc.length := by
  induction rounds generalizing node b with
  | zero => rfl
  | succ rounds ih =>
      rw [mergeLoop]
      split
      · exact (ih (node + 1) (mergeStep node b)).trans List.length_set
      · rfl

theorem genCodesLoop_fc_length (k n : Nat) (nextCode : List Nat) (tree : Tree) :
    (genCodesLoop k n nextCode tree).fc.length = tree.fc.length := by
  induction k generalizing n nextCode tree with
  | zero => rfl
  | succ k ih =>
      rw [genCodesLoop]
      split
      · exact ih ..
      · exact (ih ..).trans List.length_set

/-- A tree that has the words of a complete code, with lengths up to `maxLength`, for the
first `codes` elements, among which are all that occur in `tree`. -/
structure Complete (desc : StaticDesc) (tree : Tree) (built : Built) : Prop where
  codes_le : 2 ≤ built.codes ∧ built.codes ≤ desc.elems
  dl_length : built.tree.dl.length = tree.dl.length
  fc_length : built.tree.fc.length = tree.fc.length
  zero : ∀ y, built.codes ≤ y → y < desc.elems → entry built.tree.dl y = 0
  coded : Coded built.tree (built.tree.dl.take built.codes)
  complete : IsComplete (built.tree.dl.take built.codes) maxBits
  le : ∀ n, len (built.tree.dl.take built.codes) n ≤ desc.maxLength
  has : ∀ n, n < desc.elems → entry tree.fc n ≠ 0 → len (built.tree.dl.take built.codes) n ≠ 0

/-- `build_tree` makes a complete code of any frequencies. -/
theorem buildTree_complete {desc : StaticDesc} (hdesc : desc.Valid) {tree : Tree}
    (hdl : 2 * desc.elems ≤ tree.dl.length) (hfc : desc.elems ≤ tree.fc.length) (sizes : Sizes) :
    Complete desc tree (buildTree desc tree sizes) := by
  obtain ⟨hstarted, hlong⟩ := startHeap_started hdesc.elems_ge tree sizes
  have helems := hdesc.elems_le
  have hcodes := hstarted.codes_le
  have hdlLength := hstarted.dl_length
  have hlt : ∀ x ∈ (startHeap desc tree sizes).heap, x < desc.elems :=
    fun x hx => Nat.lt_of_lt_of_le (hstarted.lt_codes x hx) hcodes
  have hheap : (startHeap desc tree sizes).heap.length ≤ desc.elems := by
    have hle := List.Nodup.length_le_of_subset hstarted.nodup
      (show _ ⊆ List.range desc.elems from fun x hx => List.mem_range.mpr (hlt x hx))
    rwa [List.length_range] at hle
  have hzero : ∀ y, y < desc.elems → y ∉ (startHeap desc tree sizes).heap →
      entry (startHeap desc tree sizes).tree.dl y = 0 :=
    fun y hy hnot => hstarted.zero y hy (by omega) hnot
  have htwo : 2 ≤ (startHeap desc tree sizes).codes := by
    have hle := List.Nodup.length_le_of_subset hstarted.nodup
      (show _ ⊆ List.range (startHeap desc tree sizes).codes from
        fun x hx => List.mem_range.mpr (hstarted.lt_codes x hx))
    rw [List.length_range] at hle
    omega
  obtain ⟨root, order, hmerged⟩ := mergeLoop_merged hdesc.pos hdesc.le (Nat.le_refl _)
    (show 1 ≤ (startHeap desc tree sizes).heap.length by omega) hstarted.nodup hlt (by omega) hcodes
  have hcombined : combined desc tree sizes =
      { mergeLoop (startHeap desc tree sizes).heap.length desc.elems
          (startHeap desc tree sizes) with
        sorted := root ::
          (mergeLoop (startHeap desc tree sizes).heap.length desc.elems
            (startHeap desc tree sizes)).sorted } := by
    rw [combined]
    dsimp only
    rw [hmerged.heap]
    rfl
  obtain ⟨hlength, hsized⟩ := genBitlen_sized hdesc hmerged hstarted.sorted hlong hstarted.nodup
    hstarted.lt_codes hcodes (by omega) hzero (by omega)
  have hcodesEq : (combined desc tree sizes).codes = (startHeap desc tree sizes).codes := by
    rw [hcombined]
    exact hmerged.codes
  have hfcLength : (combined desc tree sizes).tree.fc.length = tree.fc.length := by
    rw [hcombined]
    exact (mergeLoop_fc_length _ _ _).trans hstarted.fc_length
  rw [← hcombined] at hsized hlength
  obtain ⟨hcomplete, hcount, hle, hhas⟩ := hsized.isComplete hstarted.nodup
    (by rw [hcodesEq]; exact hstarted.lt_codes : ∀ x ∈ _, x < (combined desc tree sizes).codes)
    (by omega) (by omega) hdesc.le
  have hlast : (combined desc tree sizes).codes - 1 + 1 = (combined desc tree sizes).codes := by
    omega
  obtain ⟨hcoded, hsame⟩ := @genCodes_coded
    { fc := (combined desc tree sizes).tree.fc
      dl := (genBitlen desc (combined desc tree sizes)).dl }
    ((combined desc tree sizes).codes - 1) (genBitlen desc (combined desc tree sizes)).blCount
    ((genBitlen desc (combined desc tree sizes)).dl.take (combined desc tree sizes).codes)
    (by rw [hlast]) (by show _ < (genBitlen desc (combined desc tree sizes)).dl.length; omega)
    (by show _ < (combined desc tree sizes).tree.fc.length; omega) hcomplete.isCode hsized.blZero
    (fun l hl _ => hcount l hl)
  have hbuilt : (buildTree desc tree sizes).tree.dl =
      (genBitlen desc (combined desc tree sizes)).dl := hsame
  have hbuiltCodes : (buildTree desc tree sizes).codes = (combined desc tree sizes).codes := rfl
  refine ⟨?_, ?_, ?_, ?_, ?_, ?_, ?_, ?_⟩
  · rw [hbuiltCodes, hcodesEq]
    exact ⟨htwo, hcodes⟩
  · rw [hbuilt, hlength, hdlLength]
  · exact (genCodesLoop_fc_length ..).trans hfcLength
  · intro y hy hlt'
    rw [hbuiltCodes, hcodesEq] at hy
    rw [hbuilt]
    exact hsized.zero y hlt' fun hx => absurd (hstarted.lt_codes y hx) (by omega)
  · rw [hbuilt, hbuiltCodes]
    exact hcoded
  · rw [hbuilt, hbuiltCodes]
    exact hcomplete
  · rw [hbuilt, hbuiltCodes]
    exact hle
  · intro n hn hne
    rw [hbuilt, hbuiltCodes]
    exact hhas n (hstarted.has n hn hne)

/-! ## Both sides -/

def Built.lens (built : Built) : List Nat := built.tree.dl.take built.codes

/-- Both versions of `decode` read the word of a symbol. -/
theorem decode_word {lens : List Nat} (hcode : Canonical.IsCode lens Puff.maxbits) {n : Nat}
    (hn : len lens n ≠ 0) {s : Puff.State} (hs : s.Valid) {more : List Bool}
    (hrest : s.rest = codeBits lens n ++ more) (slow : Bool) :
    ∃ s', Puff.decode slow (Puff.construct lens).1 s = .ok n s' ∧ s'.rest = more := by
  obtain ⟨s', hdecode, htook⟩ := Puff.decodeSlow_word hcode hn hs hrest
  have hleft : s'.rest = more := by
    have hstream := htook.stream
    rw [hrest] at hstream
    exact (List.append_cancel_left hstream).symm
  refine ⟨s', ?_, hleft⟩
  cases slow with
  | true => exact hdecode
  | false =>
      have hagree := Puff.decode_agree (Puff.construct lens).1 hs
      rw [hdecode] at hagree
      show Puff.decodeFast (Puff.construct lens).1 s = _
      cases hfast : Puff.decodeFast (Puff.construct lens).1 s with
      | ok m t =>
          rw [hfast] at hagree
          obtain ⟨rfl, rfl⟩ := hagree
          rfl
      | error e t =>
          rw [hfast] at hagree
          exact hagree.elim

/-- The two sides agree on any tree: `construct` finds the lengths that `build_tree` made
complete, and `decode` reads what `send_code` sends for an element that occurs. -/
theorem decode_sendCode {desc : StaticDesc} (hdesc : desc.Valid) {tree : Tree}
    (hdl : 2 * desc.elems ≤ tree.dl.length) (hfc : desc.elems ≤ tree.fc.length) (sizes : Sizes)
    (slow : Bool) :
    (Puff.construct (buildTree desc tree sizes).lens).2 = 0 ∧
      ∀ (n : Nat) (w : Out), n < desc.elems → entry tree.fc n ≠ 0 → w.Valid →
        ∃ u, u.length ≤ desc.maxLength ∧
          Sent w u (sendCode n (buildTree desc tree sizes).tree w) ∧
          ∀ (s : Puff.State) (more : List Bool), s.Valid → s.rest = u ++ more →
            ∃ s', Puff.decode slow (Puff.construct (buildTree desc tree sizes).lens).1 s =
                .ok n s' ∧ s'.rest = more := by
  have h := buildTree_complete hdesc hdl hfc sizes
  refine ⟨Puff.construct_complete h.complete, ?_⟩
  intro n w hn hfreq hw
  have hhas := h.has n hn hfreq
  refine ⟨codeBits (buildTree desc tree sizes).lens n, ?_, h.coded.sendCode_sent hhas hw, ?_⟩
  · rw [codeBits, Bits.length_msb]
    exact h.le n
  · intro s more hs hrest
    exact decode_word h.complete.isCode hhas hs hrest slow

/-- Frequencies whose tree has eighteen levels before it is cut down to seven. -/
def fibonacciFreq : Tree where
  fc := [1, 1, 2, 3, 5, 8, 13, 21, 34, 55, 89, 144, 233, 377, 610, 987, 1597, 2584, 4181] ++
    List.replicate 20 0
  dl := List.replicate 39 0

theorem decode_sendCode_fibonacci :
    (Puff.construct (buildTree staticBlDesc fibonacciFreq ⟨0, 0⟩).lens).2 = 0 ∧
      ∃ u, u.length ≤ 7 ∧
        Sent trInit u (sendCode 0 (buildTree staticBlDesc fibonacciFreq ⟨0, 0⟩).tree trInit) ∧
        ∀ (s : Puff.State) (more : List Bool), s.Valid → s.rest = u ++ more →
          ∃ s', Puff.decode false
              (Puff.construct (buildTree staticBlDesc fibonacciFreq ⟨0, 0⟩).lens).1 s = .ok 0 s' ∧
            s'.rest = more := by
  obtain ⟨hconstruct, hcodes⟩ := @decode_sendCode staticBlDesc staticBlDesc_valid fibonacciFreq
    (by decide) (by decide) ⟨0, 0⟩ false
  exact ⟨hconstruct, hcodes 0 trInit (by decide) (by decide) ⟨Nat.zero_le 16, Nat.zero_lt_one⟩⟩

end Trees
