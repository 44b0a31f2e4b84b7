import Dockerfiles.Zlib.TreesHeap

/-! # The lengths of `build_tree`

The elements the heap starts with, the counts of lengths after the overflow was evened
out, and the lengths that are given out from these counts.
-/

namespace Trees

open Puff (entry entry_set entry_modify)
open Canonical (first index count len IsComplete)

/-! ## The elements -/

/-- The heap has the elements once each, and all others below `k` have the length zero. -/
structure Started (tree : Tree) (k : Nat) (b : Building) : Prop where
  nodup : b.heap.Nodup
  lt_codes : ∀ x ∈ b.heap, x < b.codes
  codes_le : b.codes ≤ k
  last : b.heap.length < 2 → 1 ≤ b.codes → b.codes - 1 ∈ b.heap
  zero : ∀ y, y < k → y < b.tree.dl.length → y ∉ b.heap → entry b.tree.dl y = 0
  has : ∀ n, n < k → entry tree.fc n ≠ 0 → n ∈ b.heap
  sorted : b.sorted = []
  fc_length : b.tree.fc.length = tree.fc.length
  dl_length : b.tree.dl.length = tree.dl.length

theorem addElem_started {tree : Tree} {k : Nat} {b : Building} (h : Started tree k b)
    (hfc : b.tree.fc = tree.fc) :
    Started tree (k + 1) (addElem b k) ∧ (addElem b k).tree.fc = tree.fc := by
  have hcodes := h.codes_le
  rw [addElem]
  split
  · next hfreq =>
      have hnew : k ∉ b.heap := fun hk => absurd (h.lt_codes k hk) (by omega)
      refine ⟨⟨?_, ?_, Nat.le_refl _, ?_, ?_, ?_, h.sorted, h.fc_length, h.dl_length⟩, hfc⟩
      · exact (List.perm_append_singleton k b.heap).nodup_iff.mpr
          (List.nodup_cons.mpr ⟨hnew, h.nodup⟩)
      · intro x hx
        rcases List.mem_append.mp hx with hx | hx
        · have := h.lt_codes x hx
          show x < k + 1
          omega
        · rw [List.mem_singleton.mp hx]
          exact Nat.lt_succ_self k
      · exact fun _ _ => List.mem_append_right _ (List.mem_singleton_self k)
      · intro y hy hylength hnot
        have hyk : y ≠ k := by
          rintro rfl
          exact hnot (List.mem_append_right _ (List.mem_singleton_self y))
        exact h.zero y (by omega) hylength fun hx => hnot (List.mem_append_left _ hx)
      · intro n hn hne
        by_cases hnk : n = k
        · exact List.mem_append_right _ (List.mem_singleton.mpr hnk)
        · exact List.mem_append_left _ (h.has n (by omega) hne)
  · next hfreq =>
      rw [not_not, hfc] at hfreq
      refine ⟨⟨h.nodup, h.lt_codes, by show b.codes ≤ k + 1; omega, h.last, ?_, ?_, h.sorted,
        h.fc_length, List.length_set.trans h.dl_length⟩, hfc⟩
      · intro y hy hylength hnot
        rw [List.length_set] at hylength
        show entry (b.tree.dl.set k 0) y = 0
        rw [entry_set]
        by_cases hyk : y = k
        · rw [if_pos ⟨hyk, by omega⟩]
        · rw [if_neg (fun hx => hyk hx.1)]
          exact h.zero y (by omega) hylength hnot
      · intro n hn hne
        have hnk : n ≠ k := by
          rintro rfl
          exact hne hfreq
        exact h.has n (by omega) hne

theorem foldl_addElem_started (tree : Tree) (depth : List Nat) (sizes : Sizes) (k : Nat) :
    Started tree k ((List.range k).foldl addElem
        { heap := [], sorted := [], depth, tree, codes := 0, sizes }) ∧
      ((List.range k).foldl addElem
        { heap := [], sorted := [], depth, tree, codes := 0, sizes }).tree.fc = tree.fc := by
  induction k with
  | zero =>
      refine ⟨⟨List.nodup_nil, fun x hx => ?_, Nat.le_refl 0, fun _ hx => ?_, fun y hy => ?_,
        fun n hn => ?_, rfl, rfl, rfl⟩, rfl⟩
      · cases hx
      · exact absurd hx (Nat.lt_irrefl 0)
      · exact absurd hy (Nat.not_lt_zero y)
      · exact absurd hn (Nat.not_lt_zero n)
  | succ k ih =>
      rw [List.range_succ, List.foldl_append]
      exact addElem_started ih.1 ih.2

theorem forceElem_started {desc : StaticDesc} {tree : Tree} {k : Nat} (hk : 3 ≤ k) {b : Building}
    (h : Started tree k b) :
    Started tree k (forceElem desc b) ∧
      min 2 (b.heap.length + 1) ≤ (forceElem desc b).heap.length := by
  have hcodes := h.codes_le
  rw [forceElem]
  split
  · next hshort =>
      refine ⟨?_, ?_⟩
      · have hnew : (if b.codes < 3 then b.codes else 0) ∉ b.heap := by
          split
          · exact fun hx => Nat.lt_irrefl _ (h.lt_codes _ hx)
          · next hmany =>
              -- the only element there can be is the last code, which is not zero
              intro hzero
              have hlast := h.last hshort (by omega)
              obtain ⟨x, hx⟩ := List.length_eq_one_iff.mp (show b.heap.length = 1 by
                have := List.length_pos_of_mem hzero
                omega)
              rw [hx, List.mem_singleton] at hzero hlast
              omega
        have hlt : (if b.codes < 3 then b.codes else 0) <
            if b.codes < 3 then b.codes + 1 else b.codes := by
          split <;> omega
        refine ⟨?_, ?_, ?_, ?_, ?_, ?_, h.sorted, List.length_set.trans h.fc_length, h.dl_length⟩
        · exact (List.perm_append_singleton _ b.heap).nodup_iff.mpr
            (List.nodup_cons.mpr ⟨hnew, h.nodup⟩)
        · intro x hx
          rcases List.mem_append.mp hx with hx | hx
          · have := h.lt_codes x hx
            show x < if b.codes < 3 then b.codes + 1 else b.codes
            split <;> omega
          · rw [List.mem_singleton.mp hx]
            exact hlt
        · show (if b.codes < 3 then b.codes + 1 else b.codes) ≤ k
          split <;> omega
        · intro hshort' hpos
          have hnone : b.heap = [] := by
            have hlength : (b.heap ++ [if b.codes < 3 then b.codes else 0]).length < 2 := hshort'
            rw [List.length_append, List.length_singleton] at hlength
            exact List.eq_nil_of_length_eq_zero (by omega)
          have hzero : b.codes = 0 := by
            by_contra hne
            have hlast := h.last hshort (by omega)
            rw [hnone] at hlast
            cases hlast
          refine List.mem_append_right _ ?_
          rw [List.mem_singleton]
          dsimp only
          rw [hzero]
          rfl
        · intro y hy hylength hnot
          exact h.zero y hy hylength fun hx => hnot (List.mem_append_left _ hx)
        · exact fun n hn hne => List.mem_append_left _ (h.has n hn hne)
      · show min 2 (b.heap.length + 1) ≤ (b.heap ++ [_]).length
        rw [List.length_append, List.length_singleton]
        omega
  · next hlong => exact ⟨h, by omega⟩

theorem startHeap_started {desc : StaticDesc} (helems : 3 ≤ desc.elems) (tree : Tree)
    (sizes : Sizes) :
    Started tree desc.elems (startHeap desc tree sizes) ∧
      2 ≤ (startHeap desc tree sizes).heap.length := by
  obtain ⟨h0, -⟩ := foldl_addElem_started tree (List.replicate 573 0) sizes desc.elems
  obtain ⟨h1, hlen1⟩ := @forceElem_started desc tree desc.elems helems _ h0
  obtain ⟨h2, hlen2⟩ := @forceElem_started desc tree desc.elems helems _ h1
  rw [startHeap]
  dsimp only
  generalize forceElem desc (forceElem desc _) = b at h2 hlen2 ⊢
  have hperm := establish_perm b.tree b.depth (Nat.div_le_self b.heap.length 2)
  refine ⟨⟨?_, ?_, h2.codes_le, ?_, ?_, ?_, h2.sorted, h2.fc_length, h2.dl_length⟩, ?_⟩
  · exact hperm.nodup_iff.mpr h2.nodup
  · exact fun x hx => h2.lt_codes x (hperm.mem_iff.mp hx)
  · intro hshort hpos
    exact hperm.mem_iff.mpr (h2.last (hperm.length_eq ▸ hshort) hpos)
  · exact fun y hy hylength hnot => h2.zero y hy hylength fun hx => hnot (hperm.mem_iff.mpr hx)
  · exact fun n hn hne => hperm.mem_iff.mpr (h2.has n hn hne)
  · show 2 ≤ (establish b.tree b.depth (b.heap.length / 2) b.heap).length
    rw [hperm.length_eq]
    omega

/-! ## The counts -/

theorem lastUsed_spec (blCount : List Nat) (k : Nat) :
    (lastUsed blCount k = 0 ∧ ∀ j, 1 ≤ j → j ≤ k → entry blCount j = 0) ∨
      (1 ≤ lastUsed blCount k ∧ lastUsed blCount k ≤ k ∧
        entry blCount (lastUsed blCount k) ≠ 0) := by
  induction k with
  | zero => exact Or.inl ⟨rfl, fun j h1 h2 => absurd h2 (by omega)⟩
  | succ k ih =>
      rw [lastUsed]
      split
      · next hzero =>
          rcases ih with ⟨heq, hall⟩ | ⟨hpos, hle, hne⟩
          · refine Or.inl ⟨heq, fun j h1 h2 => ?_⟩
            by_cases hj : j = k + 1
            · rw [hj, hzero]
            · exact hall j h1 (by omega)
          · exact Or.inr ⟨hpos, by omega, hne⟩
      · next hne => exact Or.inr ⟨by omega, Nat.le_refl _, hne⟩

/-- Counts of `total` lengths up to `m` that take `overflow` more than all the room. -/
structure Excess (m total : Nat) (blCount : List Nat) (overflow : Nat) : Prop where
  length : blCount.length = maxBits + 1
  zero : entry blCount 0 = 0
  above : ∀ l, m < l → entry blCount l = 0
  first : first (entry blCount) (m + 1) = 2 ^ (m + 1) + overflow
  index : index (entry blCount) (m + 1) = total
  deep : overflow ≤ 2 * entry blCount m

section Repair

variable {desc : StaticDesc} {total : Nat} {blCount : List Nat}

/-- Moving a leaf down takes two off the overflow. -/
theorem Excess.moveDown (hm : 1 ≤ desc.maxLength) (hmax : desc.maxLength ≤ maxBits)
    (htotal : total ≤ 2 ^ desc.maxLength) {overflow : Nat}
    (h : Excess desc.maxLength total blCount (overflow + 2)) :
    Excess desc.maxLength total (Trees.moveDown desc blCount) overflow := by
  have hlength := h.length
  have hdeep := h.deep
  have hfirst := h.first
  rcases lastUsed_spec blCount (desc.maxLength - 1) with ⟨-, hall⟩ | ⟨hpos, hle, hne⟩
  · -- so many words of the longest length alone there are not
    exfalso
    have hlast := Canonical.first_eq_of_last hm fun l hl hlt => hall l hl (by omega)
    rw [hfirst, h.index, Nat.pow_succ] at hlast
    omega
  · have hmove : ∀ j, entry blCount j + 2 *
        (if j = lastUsed blCount (desc.maxLength - 1) + 1 then 1 else 0) =
        entry (Trees.moveDown desc blCount) j +
          ((if j = lastUsed blCount (desc.maxLength - 1) then 1 else 0) +
            if j = desc.maxLength then 1 else 0) := by
      intro j
      rw [Trees.moveDown, entry_modify, entry_modify, entry_modify, List.length_modify,
        List.length_modify]
      generalize lastUsed blCount (desc.maxLength - 1) = bits at hpos hle hne ⊢
      by_cases hj : j = bits
      · rw [if_neg (by omega), if_neg (by omega), if_neg (by omega), if_pos ⟨hj, by omega⟩,
          if_pos hj, if_neg (by omega), hj]
        omega
      · by_cases hj1 : j = bits + 1
        · by_cases hjm : j = desc.maxLength
          · rw [if_pos hj1, if_pos ⟨hjm, by omega⟩, if_pos ⟨hj1, by omega⟩, if_neg (by omega),
              if_neg hj, if_pos hjm]
            omega
          · rw [if_pos hj1, if_neg (by omega), if_pos ⟨hj1, by omega⟩, if_neg (by omega),
              if_neg hj, if_neg hjm]
        · by_cases hjm : j = desc.maxLength
          · rw [if_neg hj1, if_pos ⟨hjm, by omega⟩, if_neg (by omega), if_neg (by omega),
              if_neg hj, if_pos hjm, hjm]
            omega
          · rw [if_neg hj1, if_neg (by omega), if_neg (by omega), if_neg (by omega),
              if_neg hj, if_neg hjm]
    obtain ⟨hfirst', hindex'⟩ := Canonical.first_move hpos (by omega) hmove
    refine ⟨?_, ?_, ?_, by omega, by rw [← hindex', h.index], ?_⟩
    · rw [Trees.moveDown, List.length_modify, List.length_modify, List.length_modify, hlength]
    · have := hmove 0
      rw [h.zero, if_neg (by omega), if_neg (by omega), if_neg (by omega)] at this
      omega
    · intro l hl
      have := hmove l
      rw [h.above l hl, if_neg (by omega), if_neg (by omega), if_neg (by omega)] at this
      omega
    · have := hmove desc.maxLength
      rw [if_pos rfl] at this
      split at this <;> split at this <;> omega

/-- The overflow is evened out. -/
theorem Excess.moveAll (hm : 1 ≤ desc.maxLength) (hmax : desc.maxLength ≤ maxBits)
    (htotal : total ≤ 2 ^ desc.maxLength) {overflow : Nat}
    (h : Excess desc.maxLength total blCount overflow) :
    Excess desc.maxLength total (Trees.moveAll desc overflow blCount) 0 := by
  have heven : overflow % 2 = 0 := by
    have hfirst := h.first
    rw [Canonical.first_succ _ hm, Nat.pow_succ] at hfirst
    omega
  obtain ⟨e, rfl⟩ : ∃ e, overflow = 2 * e := ⟨overflow / 2, by omega⟩
  clear heven
  induction e generalizing blCount with
  | zero => exact h
  | succ e ih => exact ih (h.moveDown hm hmax htotal)

end Repair

/-! ## The second pass -/

section SecondPass

variable (fc : List Nat) (codes : Nat)

theorem setLength_dl (bits : Nat) (p : Pass) (m : Nat) :
    (setLength fc bits p m).dl.length = p.dl.length ∧
      ∀ x, entry (setLength fc bits p m).dl x =
        if x = m ∧ m < p.dl.length then bits else entry p.dl x := by
  rw [setLength]
  split
  · exact ⟨List.length_set, fun x => entry_set p.dl m bits x⟩
  · next hsame =>
      rw [not_not] at hsame
      refine ⟨rfl, fun x => ?_⟩
      split
      · next hx => rw [hx.1, hsame]
      · rfl

/-- The next elements get the length, and the others keep theirs. -/
theorem assignLoop_spec (bits : Nat) {n : Nat} {rest : List Nat} {p : Pass}
    (hn : n ≤ (rest.filter (· < codes)).length) (hcodes : codes ≤ p.dl.length) :
    (assignLoop fc codes bits n rest p).1.filter (· < codes) =
        (rest.filter (· < codes)).drop n ∧
      (assignLoop fc codes bits n rest p).2.dl.length = p.dl.length ∧
      ∀ x, entry (assignLoop fc codes bits n rest p).2.dl x =
        if x ∈ (rest.filter (· < codes)).take n then bits else entry p.dl x := by
  induction rest generalizing n p with
  | nil =>
      obtain rfl : n = 0 := by simpa using hn
      rw [assignLoop]
      exact ⟨rfl, rfl, fun x => rfl⟩
  | cons m rest ih =>
      cases n with
      | zero =>
          rw [assignLoop]
          refine ⟨rfl, rfl, fun x => ?_⟩
          rw [List.take_zero, if_neg List.not_mem_nil]
      | succ n =>
          rw [assignLoop]
          by_cases hm : m ≥ codes
          · have hfilter : (m :: rest).filter (· < codes) = rest.filter (· < codes) := by
              rw [List.filter_cons_of_neg]
              rw [decide_eq_true_iff]
              omega
            rw [hfilter] at hn
            rw [if_pos hm, hfilter]
            exact ih hn hcodes
          · have hfilter : (m :: rest).filter (· < codes) = m :: rest.filter (· < codes) := by
              rw [List.filter_cons_of_pos]
              rw [decide_eq_true_iff]
              omega
            obtain ⟨hlength, hset⟩ := setLength_dl fc bits p m
            rw [hfilter, List.length_cons] at hn
            obtain ⟨h1, h2, h3⟩ := @ih n (setLength fc bits p m) (by omega) (by rwa [hlength])
            rw [if_neg hm, hfilter]
            refine ⟨h1, h2.trans hlength, fun x => ?_⟩
            rw [h3, hset, List.take_succ_cons]
            by_cases hx : x ∈ (rest.filter (· < codes)).take n
            · rw [if_pos hx, if_pos (List.mem_cons_of_mem m hx)]
            · rw [if_neg hx]
              by_cases hxm : x = m
              · rw [if_pos ⟨hxm, by omega⟩, if_pos (hxm ▸ List.mem_cons_self)]
              · rw [if_neg (fun h => hxm h.1), if_neg]
                exact fun h => (List.mem_cons.mp h).elim hxm hx

theorem assignLoop_blCount (bits n : Nat) (rest : List Nat) (p : Pass) :
    (assignLoop fc codes bits n rest p).2.blCount = p.blCount := by
  induction rest generalizing n p with
  | nil => cases n <;> rfl
  | cons m rest ih =>
      cases n with
      | zero => rfl
      | succ n =>
          rw [assignLoop]
          split
          · exact ih (n + 1) p
          · rw [ih, setLength]
            split <;> rfl

theorem secondPass_blCount (blCount : List Nat) (bits : Nat) (rest : List Nat) (p : Pass) :
    (secondPass fc codes blCount bits rest p).blCount = p.blCount := by
  induction bits generalizing rest p with
  | zero => rfl
  | succ bits ih =>
      rw [secondPass]
      dsimp only
      rw [ih, assignLoop_blCount]

/-- Lengths are given out as they are counted. -/
structure GivenOut (blCount elems : List Nat) (m : Nat) (dl dl' : List Nat) : Prop where
  length : dl'.length = dl.length
  other : ∀ x, x ∉ elems → entry dl' x = entry dl x
  bounds : ∀ x ∈ elems, 1 ≤ entry dl' x ∧ entry dl' x ≤ m
  count : ∀ l, 1 ≤ l → l ≤ m → (elems.countP fun x => decide (entry dl' x = l)) = entry blCount l

theorem secondPass_givenOut {blCount : List Nat} {bits : Nat} {rest : List Nat} {p : Pass}
    (hindex : index (entry blCount) (bits + 1) = (rest.filter (· < codes)).length)
    (hnodup : (rest.filter (· < codes)).Nodup) (hcodes : codes ≤ p.dl.length) :
    GivenOut blCount (rest.filter (· < codes)) bits p.dl
      (secondPass fc codes blCount bits rest p).dl := by
  induction bits generalizing rest p with
  | zero =>
      have hnone : rest.filter (· < codes) = [] := List.eq_nil_of_length_eq_zero hindex.symm
      rw [hnone, secondPass]
      exact ⟨rfl, fun x _ => rfl, fun x hx => absurd hx List.not_mem_nil,
        fun l h1 h2 => absurd h2 (by omega)⟩
  | succ bits ih =>
      rw [Canonical.index_succ _ (by omega)] at hindex
      obtain ⟨hleft, hlength, hset⟩ := @assignLoop_spec fc codes (bits + 1)
        (entry blCount (bits + 1)) rest p (by omega) hcodes
      rw [secondPass]
      dsimp only
      generalize assignLoop fc codes (bits + 1) (entry blCount (bits + 1)) rest p = r at *
      have hsplit := List.take_append_drop (entry blCount (bits + 1)) (rest.filter (· < codes))
      have hnodup' := hnodup
      rw [← hsplit] at hnodup'
      obtain ⟨-, hnodupDrop, hdisjoint⟩ := List.nodup_append.mp hnodup'
      have h := @ih r.1 r.2 (by rw [hleft, List.length_drop]; omega) (hleft ▸ hnodupDrop)
        (by rwa [hlength])
      rw [hleft] at h
      have htake : ∀ x ∈ (rest.filter (· < codes)).take (entry blCount (bits + 1)),
          entry (secondPass fc codes blCount bits r.1 r.2).dl x = bits + 1 := by
        intro x hx
        rw [h.other x fun hdrop => hdisjoint x hx x hdrop rfl, hset, if_pos hx]
      refine ⟨h.length.trans hlength, ?_, ?_, ?_⟩
      · intro x hx
        rw [h.other x fun hdrop => hx (List.mem_of_mem_drop hdrop), hset,
          if_neg fun ht => hx (List.mem_of_mem_take ht)]
      · intro x hx
        rw [← hsplit] at hx
        rcases List.mem_append.mp hx with hx | hx
        · rw [htake x hx]
          omega
        · have := h.bounds x hx
          omega
      · intro l hl hle
        have hcount : ((rest.filter (· < codes)).countP fun x =>
            decide (entry (secondPass fc codes blCount bits r.1 r.2).dl x = l)) =
            (((rest.filter (· < codes)).take (entry blCount (bits + 1))).countP fun x =>
              decide (entry (secondPass fc codes blCount bits r.1 r.2).dl x = l)) +
            ((rest.filter (· < codes)).drop (entry blCount (bits + 1))).countP fun x =>
              decide (entry (secondPass fc codes blCount bits r.1 r.2).dl x = l) := by
          rw [← List.countP_append, hsplit]
        rw [hcount]
        by_cases hlast : l = bits + 1
        · have hall := List.countP_eq_length.mpr fun x
            (hx : x ∈ (rest.filter (· < codes)).take (entry blCount (bits + 1))) =>
            decide_eq_true ((htake x hx).trans hlast.symm)
          have hnone := List.countP_eq_zero.mpr fun x
            (hx : x ∈ (rest.filter (· < codes)).drop (entry blCount (bits + 1))) =>
            show ¬ decide (entry (secondPass fc codes blCount bits r.1 r.2).dl x = l) = true by
              have := h.bounds x hx
              rw [decide_eq_true_iff]
              omega
          rw [hall, hnone, List.length_take, hlast]
          omega
        · have hnone := List.countP_eq_zero.mpr fun x
            (hx : x ∈ (rest.filter (· < codes)).take (entry blCount (bits + 1))) =>
            show ¬ decide (entry (secondPass fc codes blCount bits r.1 r.2).dl x = l) = true by
              have := htake x hx
              rw [decide_eq_true_iff]
              omega
          rw [hnone, h.count l hl (by omega), Nat.zero_add]

end SecondPass

end Trees
