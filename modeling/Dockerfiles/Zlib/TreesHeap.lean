import Dockerfiles.Huffman.Kraft
import Dockerfiles.Zlib.TreesBuild

/-! # The heap of `build_tree`

Whatever order the heap is in, moving a node down only changes the order, and each round
replaces two nodes by their father. The first loop of `gen_bitlen` goes through these
rounds backwards and splits the father's length.
-/

namespace Trees

open Puff (entry entry_set entry_modify)
open Canonical (Balanced)

theorem entry_of_lt {a : List Nat} {i : Nat} (h : i < a.length) : entry a i = a[i] :=
  Canonical.len_of_lt a h

/-! ## Order -/

theorem swap_perm {heap : List Nat} {i j : Nat} (v : Nat) (hi : i < heap.length)
    (hj : j < heap.length) (hij : i ≠ j) :
    ((heap.set i (entry heap j)).set j v).Perm (heap.set i v) := by
  have hi' : i < (heap.set i v).length := by rwa [List.length_set]
  have hj' : j < (heap.set i v).length := by rwa [List.length_set]
  have hswap := List.set_set_perm hi' hj'
  rw [List.set_set, List.getElem_set_ne hij, List.getElem_set_self] at hswap
  rw [entry_of_lt hj]
  exact hswap

section Heap

variable (tree : Tree) (depth : List Nat)

theorem smallerSon_bounds {heap : List Nat} {k : Nat} (h : k <<< 1 ≤ heap.length) :
    2 * k ≤ smallerSon tree depth heap k ∧ smallerSon tree depth heap k ≤ heap.length := by
  have hshift : k <<< 1 = 2 * k := by rw [Nat.shiftLeft_eq, Nat.pow_one, Nat.mul_comm]
  rw [smallerSon, hshift]
  rw [hshift] at h
  split
  · next hson => exact ⟨Nat.le_succ _, hson.1⟩
  · exact ⟨Nat.le_refl _, h⟩

theorem pqdownLoop_perm (v rounds : Nat) {k : Nat} {heap : List Nat} (hk : 1 ≤ k)
    (hle : k ≤ heap.length) :
    (pqdownLoop tree depth v rounds k heap).Perm (heapSet heap k v) := by
  induction rounds generalizing k heap with
  | zero => exact List.Perm.refl _
  | succ rounds ih =>
      rw [pqdownLoop]
      split
      · next hson =>
          obtain ⟨hlow, hhigh⟩ := smallerSon_bounds tree depth hson
          dsimp only
          split
          · exact List.Perm.refl _
          · refine (ih (by omega) (by rw [heapSet, List.length_set]; exact hhigh)).trans ?_
            exact swap_perm v (by omega) (by omega) (by omega)
      · exact List.Perm.refl _

theorem pqdownheap_perm {k : Nat} {heap : List Nat} (hk : 1 ≤ k) (hle : k ≤ heap.length) :
    (pqdownheap tree depth k heap).Perm heap := by
  have hsame : heapSet heap k (heapAt heap k) = heap := by
    rw [heapSet, heapAt, entry_of_lt (by omega), List.set_getElem_self]
  have hperm := pqdownLoop_perm tree depth (heapAt heap k) heap.length hk hle
  rw [hsame] at hperm
  exact hperm

theorem establish_perm {n : Nat} {heap : List Nat} (hn : n ≤ heap.length) :
    (establish tree depth n heap).Perm heap := by
  induction n generalizing heap with
  | zero => exact List.Perm.refl _
  | succ n ih =>
      have hdown := pqdownheap_perm tree depth (Nat.le_add_left 1 n) hn
      exact (ih (by rw [hdown.length_eq]; omega)).trans hdown

/-- The first element of the heap is taken out. -/
theorem pqremove_perm {heap : List Nat} (h : 2 ≤ heap.length) :
    (heapAt heap 1 :: pqremove tree depth heap).Perm heap := by
  cases heap with
  | nil => exact absurd h (by decide)
  | cons n rest =>
      have hne : rest ≠ [] := by
        rintro rfl
        exact absurd h (Nat.lt_irrefl 1)
      have hlast : heapAt (n :: rest) (n :: rest).length = rest.getLast hne := by
        have hlt : rest.length - 1 < rest.length := by
          have := List.length_pos_of_ne_nil hne
          omega
        rw [heapAt, List.length_cons, Nat.add_sub_cancel, entry_of_lt (Nat.lt_succ_self _),
          List.getElem_cons_length, List.getLast_cons hne]
        rfl
      have hleft : (heapSet (n :: rest) 1 (heapAt (n :: rest) (n :: rest).length)).dropLast =
          rest.getLast hne :: rest.dropLast := by
        rw [hlast, heapSet, Nat.sub_self, List.set_cons_zero, List.dropLast_cons_of_ne_nil hne]
      have hdown := @pqdownheap_perm tree depth 1 (rest.getLast hne :: rest.dropLast)
        (Nat.le_refl 1) (Nat.le_add_left 1 _)
      refine List.Perm.cons n ?_
      rw [pqremove, hleft]
      refine hdown.trans ?_
      have hsplit := List.dropLast_append_getLast hne
      have hperm := (List.perm_append_singleton (rest.getLast hne) rest.dropLast).symm
      rw [hsplit] at hperm
      exact hperm

end Heap

/-- What a round does: two nodes make way for their father. -/
theorem mergeStep_spec {b : Building} (h : 2 ≤ b.heap.length) (node : Nat) :
    ∃ n m rest, b.heap.Perm (n :: m :: rest) ∧ (mergeStep node b).heap.Perm (node :: rest) ∧
      (mergeStep node b).sorted = m :: n :: b.sorted ∧
      (mergeStep node b).tree.dl = (b.tree.dl.set m node).set n node ∧
      (mergeStep node b).codes = b.codes := by
  have hremove := pqremove_perm b.tree b.depth h
  have hlength := hremove.length_eq
  rw [List.length_cons] at hlength
  obtain ⟨m, rest, hrest⟩ : ∃ m rest, pqremove b.tree b.depth b.heap = m :: rest :=
    List.exists_cons_of_length_pos (by omega)
  refine ⟨heapAt b.heap 1, m, rest, ?_, ?_, ?_, ?_, rfl⟩
  · rw [hrest] at hremove
    exact hremove.symm
  · rw [mergeStep]
    dsimp only
    rw [hrest]
    exact pqdownheap_perm _ _ (Nat.le_refl 1) (Nat.le_add_left 1 _)
  · rw [mergeStep]
    dsimp only
    rw [hrest]
    rfl
  · rw [mergeStep]
    dsimp only
    rw [hrest]
    rfl

/-! ## The first pass -/

section FirstPass

variable (desc : StaticDesc) (fc : List Nat) (codes : Nat)

theorem firstPass_dl (p : Pass) (n : Nat) :
    (firstPass desc fc codes p n).dl =
      p.dl.set n (min (entry p.dl (entry p.dl n) + 1) desc.maxLength) := by
  rw [firstPass]
  dsimp only
  split <;> rfl

theorem firstPass_overflow (p : Pass) (n : Nat) :
    (firstPass desc fc codes p n).overflow =
      if entry p.dl (entry p.dl n) + 1 > desc.maxLength then p.overflow + 1 else p.overflow := by
  rw [firstPass]
  dsimp only
  split <;> rfl

theorem firstPass_blCount (p : Pass) (n : Nat) :
    (firstPass desc fc codes p n).blCount =
      if n ≥ codes then p.blCount
      else p.blCount.modify (min (entry p.dl (entry p.dl n) + 1) desc.maxLength) (· + 1) := by
  rw [firstPass]
  dsimp only
  split <;> rfl

theorem entry_firstPass_blCount {p : Pass} (hmax : desc.maxLength ≤ maxBits)
    (hlength : p.blCount.length = maxBits + 1) (n l : Nat) :
    entry (firstPass desc fc codes p n).blCount l = entry p.blCount l +
      if n < codes ∧ min (entry p.dl (entry p.dl n) + 1) desc.maxLength = l then 1 else 0 := by
  have hle := Nat.min_le_right (entry p.dl (entry p.dl n) + 1) desc.maxLength
  rw [firstPass_blCount]
  split
  · rw [if_neg (by omega), Nat.add_zero]
  · rw [entry_modify]
    by_cases hl : l = min (entry p.dl (entry p.dl n) + 1) desc.maxLength
    · rw [if_pos ⟨hl, by omega⟩, if_pos ⟨by omega, hl.symm⟩]
    · rw [if_neg (fun hx => hl hx.1), if_neg (fun hx => hl hx.2.symm), Nat.add_zero]

/-- What the first pass does with two brothers, whose father has the length `d`. -/
structure Pair (p : Pass) (n m d : Nat) (q : Pass) : Prop where
  dl : ∀ x, entry q.dl x = if x = n ∨ x = m then min (d + 1) desc.maxLength else entry p.dl x
  length : q.dl.length = p.dl.length
  overflow : q.overflow = if d + 1 > desc.maxLength then p.overflow + 2 else p.overflow
  blCount : ∀ l, entry q.blCount l = entry p.blCount l +
    (if m < codes ∧ min (d + 1) desc.maxLength = l then 1 else 0) +
    if n < codes ∧ min (d + 1) desc.maxLength = l then 1 else 0
  blLength : q.blCount.length = p.blCount.length

theorem firstPass_pair (hmax : desc.maxLength ≤ maxBits) {p : Pass} {n m node : Nat}
    (hblLength : p.blCount.length = maxBits + 1) (hnm : n ≠ m) (hmnode : m ≠ node)
    (hn : n < p.dl.length) (hm : m < p.dl.length) (hdadn : entry p.dl n = node)
    (hdadm : entry p.dl m = node) :
    Pair desc codes p n m (entry p.dl node)
      (firstPass desc fc codes (firstPass desc fc codes p m) n) := by
  have hdl : (firstPass desc fc codes p m).dl =
      p.dl.set m (min (entry p.dl node + 1) desc.maxLength) := by
    rw [firstPass_dl, hdadm]
  have hdad : entry (firstPass desc fc codes p m).dl n = node := by
    rw [hdl, entry_set, if_neg (fun hx => hnm hx.1), hdadn]
  have hnode : entry (firstPass desc fc codes p m).dl node = entry p.dl node := by
    rw [hdl, entry_set, if_neg (fun hx => hmnode hx.1.symm)]
  have hbl : (firstPass desc fc codes p m).blCount.length = p.blCount.length := by
    rw [firstPass_blCount]
    split
    · rfl
    · exact List.length_modify ..
  refine ⟨?_, ?_, ?_, ?_, ?_⟩
  · intro x
    rw [firstPass_dl, hdad, hnode, hdl, entry_set, entry_set, List.length_set]
    by_cases hxn : x = n
    · rw [if_pos ⟨hxn, hn⟩, if_pos (Or.inl hxn)]
    · by_cases hxm : x = m
      · rw [if_neg (fun hx => hxn hx.1), if_pos ⟨hxm, hm⟩, if_pos (Or.inr hxm)]
      · rw [if_neg (fun hx => hxn hx.1), if_neg (fun hx => hxm hx.1),
          if_neg (fun hx => hx.elim hxn hxm)]
  · rw [firstPass_dl, List.length_set, hdl, List.length_set]
  · rw [firstPass_overflow, hdad, hnode, firstPass_overflow, hdadm]
    split <;> rfl
  · intro l
    rw [entry_firstPass_blCount desc fc codes hmax (hbl.trans hblLength), hdad, hnode,
      entry_firstPass_blCount desc fc codes hmax hblLength, hdadm]
  · rw [firstPass_blCount]
    split
    · exact hbl
    · exact (List.length_modify ..).trans hbl

/-- How many elements, of those in `heap` that are codes, have the length. -/
def lengthCount (heap dl : List Nat) (l : Nat) : Nat :=
  heap.countP fun x => decide (x < codes ∧ entry dl x = l)

/-- The nodes of the heap have the lengths of the leaves of a tree, and below `node` no
others were changed. -/
structure Spreads (heap dl : List Nat) (node : Nat) (p : Pass) : Prop where
  balanced : Balanced desc.maxLength (heap.map (entry p.dl)) p.overflow
  pos : 2 ≤ heap.length → ∀ x ∈ heap, 1 ≤ entry p.dl x
  other : ∀ y, y < node → y ∉ heap → entry p.dl y = entry dl y
  blCount : ∀ l, 1 ≤ l → entry p.blCount l = lengthCount codes heap p.dl l
  blZero : entry p.blCount 0 = 0
  length : p.dl.length = dl.length
  blLength : p.blCount.length = maxBits + 1

variable {desc fc codes}

section Brothers

variable {p q : Pass} {n m d : Nat} {rest : List Nat} (h : Pair desc codes p n m d q)

include h

theorem Pair.kept (hn : n ∉ rest) (hm : m ∉ rest) : ∀ x ∈ rest, entry q.dl x = entry p.dl x := by
  intro x hx
  rw [h.dl, if_neg]
  rintro (rfl | rfl)
  · exact hn hx
  · exact hm hx

theorem Pair.map_dl (hn : n ∉ rest) (hm : m ∉ rest) :
    (n :: m :: rest).map (entry q.dl) =
      min (d + 1) desc.maxLength :: min (d + 1) desc.maxLength :: rest.map (entry p.dl) := by
  rw [List.map_cons, List.map_cons, h.dl, if_pos (Or.inl rfl), h.dl, if_pos (Or.inr rfl),
    List.map_congr_left (h.kept hn hm)]

/-- The father's length is split in two, or two more are too deep. -/
theorem Pair.balanced (hn : n ∉ rest) (hm : m ∉ rest)
    (hbalanced : Balanced desc.maxLength (d :: rest.map (entry p.dl)) p.overflow) :
    Balanced desc.maxLength ((n :: m :: rest).map (entry q.dl)) q.overflow := by
  have hle := hbalanced.le d List.mem_cons_self
  rw [h.map_dl hn hm, h.overflow]
  by_cases hdeep : d + 1 > desc.maxLength
  · have heq : d = desc.maxLength := by omega
    rw [heq] at hbalanced
    rw [if_pos hdeep, Nat.min_eq_right (by omega)]
    exact hbalanced.split_deep
  · rw [if_neg hdeep, Nat.min_eq_left (by omega)]
    exact hbalanced.split (by omega)

/-- The counts grow by the brothers that are codes. -/
theorem Pair.lengthCount (hn : n ∉ rest) (hm : m ∉ rest) {l : Nat}
    (hcount : entry p.blCount l = lengthCount codes rest p.dl l) :
    entry q.blCount l = lengthCount codes (n :: m :: rest) q.dl l := by
  have hsame : Trees.lengthCount codes rest q.dl l = Trees.lengthCount codes rest p.dl l :=
    List.countP_congr fun x hx => by rw [h.kept hn hm x hx]
  have hnewn := h.dl n
  have hnewm := h.dl m
  rw [if_pos (Or.inl rfl)] at hnewn
  rw [if_pos (Or.inr rfl)] at hnewm
  rw [h.blCount, hcount, ← hsame, Trees.lengthCount, Trees.lengthCount, List.countP_cons,
    List.countP_cons, hnewn, hnewm]
  simp only [decide_eq_true_eq]

end Brothers

/-- The father's length is split. -/
theorem Spreads.step (hm : 1 ≤ desc.maxLength) (hmax : desc.maxLength ≤ maxBits)
    {heap heap' rest dl : List Nat} {n m node : Nat} {p : Pass} (hperm : heap.Perm (n :: m :: rest))
    (hperm' : heap'.Perm (node :: rest)) (hnodup : heap.Nodup) (hlt : ∀ x ∈ heap, x < node)
    (hnode : node < dl.length) (hcodes : codes ≤ node)
    (h : Spreads desc codes heap' ((dl.set m node).set n node) (node + 1) p) :
    Spreads desc codes heap dl node
      (firstPass desc fc codes (firstPass desc fc codes p m) n) := by
  have hnodup' := hperm.nodup_iff.mp hnodup
  have hn : n < node := hlt n (hperm.mem_iff.mpr List.mem_cons_self)
  have hm' : m < node :=
    hlt m (hperm.mem_iff.mpr (List.mem_cons_of_mem n List.mem_cons_self))
  have hrest : ∀ x ∈ rest, x < node := fun x hx =>
    hlt x (hperm.mem_iff.mpr (List.mem_cons_of_mem n (List.mem_cons_of_mem m hx)))
  obtain ⟨hn1, hm1⟩ := List.nodup_cons.mp hnodup'
  have hnm : n ≠ m := fun heq => hn1 (heq ▸ List.mem_cons_self)
  have hnrest : n ∉ rest := fun hx => hn1 (List.mem_cons_of_mem m hx)
  have hmrest : m ∉ rest := (List.nodup_cons.mp hm1).1
  have hnot : ∀ {y}, y < node → y ∉ rest → y ∉ heap' := by
    intro y hy hyrest hmem
    rcases List.mem_cons.mp (hperm'.mem_iff.mp hmem) with rfl | hmem
    · exact Nat.lt_irrefl _ hy
    · exact hyrest hmem
  have hlength : p.dl.length = dl.length := by
    rw [h.length, List.length_set, List.length_set]
  -- both still have their father in `Dad`
  have hdadn : entry p.dl n = node := by
    rw [h.other n (by omega) (hnot hn hnrest), entry_set,
      if_pos ⟨rfl, by rw [List.length_set]; omega⟩]
  have hdadm : entry p.dl m = node := by
    rw [h.other m (by omega) (hnot hm' hmrest), entry_set, if_neg (fun hx => hnm hx.1.symm),
      entry_set, if_pos ⟨rfl, by omega⟩]
  have hpair := firstPass_pair desc fc codes hmax h.blLength hnm (Nat.ne_of_lt hm')
    (by omega) (by omega) hdadn hdadm
  have hbalanced := h.balanced.perm (hperm'.map (entry p.dl))
  rw [List.map_cons] at hbalanced
  refine ⟨?_, ?_, ?_, ?_, ?_, ?_, ?_⟩
  · exact (hpair.balanced hnrest hmrest hbalanced).perm (hperm.map _).symm
  · intro hlong x hx
    rcases List.mem_cons.mp (hperm.mem_iff.mp hx) with rfl | hx
    · rw [hpair.dl, if_pos (Or.inl rfl)]
      omega
    · rcases List.mem_cons.mp hx with rfl | hx
      · rw [hpair.dl, if_pos (Or.inr rfl)]
        omega
      · rw [hpair.kept hnrest hmrest x hx]
        refine h.pos ?_ x (hperm'.mem_iff.mpr (List.mem_cons_of_mem node hx))
        have hone := List.length_pos_of_mem hx
        rw [hperm'.length_eq, List.length_cons]
        omega
  · intro y hy hyheap
    have hyn : y ≠ n := fun heq => hyheap (hperm.mem_iff.mpr (heq ▸ List.mem_cons_self))
    have hym : y ≠ m := fun heq => hyheap (hperm.mem_iff.mpr
      (heq ▸ List.mem_cons_of_mem n List.mem_cons_self))
    have hyrest : y ∉ rest := fun hx => hyheap (hperm.mem_iff.mpr
      (List.mem_cons_of_mem n (List.mem_cons_of_mem m hx)))
    rw [hpair.dl, if_neg (fun hx => hx.elim hyn hym), h.other y (by omega) (hnot hy hyrest),
      entry_set, if_neg (fun hx => hyn hx.1), entry_set, if_neg (fun hx => hym hx.1)]
  · intro l hl
    have hcount : lengthCount codes heap' p.dl l = lengthCount codes rest p.dl l := by
      rw [lengthCount, hperm'.countP_eq, List.countP_cons_of_neg]
      · rfl
      · rw [decide_eq_true_iff]
        omega
    rw [hpair.lengthCount hnrest hmrest ((h.blCount l hl).trans hcount)]
    exact (hperm.countP_eq _).symm
  · have hbits : min (entry p.dl node + 1) desc.maxLength ≠ 0 := by omega
    rw [hpair.blCount, h.blZero, if_neg (fun hx => hbits hx.2), if_neg (fun hx => hbits hx.2)]
  · rw [hpair.length, hlength]
  · rw [hpair.blLength, h.blLength]

end FirstPass

def passStart (dl : List Nat) (root : Nat) (sizes : Sizes) : Pass where
  dl := dl.set root 0
  blCount := List.replicate (maxBits + 1) 0
  overflow := 0
  sizes := sizes

theorem spreads_start (desc : StaticDesc) {codes root node : Nat} {dl : List Nat}
    (hroot : root < dl.length) (sizes : Sizes) :
    Spreads desc codes [root] dl node (passStart dl root sizes) := by
  have hzero : entry (passStart dl root sizes).dl root = 0 := by
    rw [passStart, entry_set, if_pos ⟨rfl, hroot⟩]
  refine ⟨?_, ?_, ?_, ?_, rfl, List.length_set, List.length_replicate⟩
  · rw [List.map_singleton, hzero]
    exact Canonical.balanced_root desc.maxLength
  · exact fun hlong => absurd hlong (Nat.lt_irrefl 1)
  · intro y hy hne
    rw [passStart, entry_set, if_neg (fun hx => hne (List.mem_singleton.mpr hx.1))]
  · intro l hl
    have hnone : entry (passStart dl root sizes).blCount l = 0 := by
      rw [passStart, entry, List.getD_eq_getElem?_getD, List.getElem?_replicate]
      split <;> rfl
    rw [hnone, lengthCount, List.countP_cons_of_neg]
    · rfl
    · rw [decide_eq_true_iff, hzero]
      omega

/-- What the rounds leave: one root, the nodes in the order they were taken, the elements
once each among them, and `Dad` such that the first pass spreads the lengths. -/
structure Merged (desc : StaticDesc) (b : Building) (node : Nat) (b' : Building)
    (root : Nat) (order : List Nat) : Prop where
  heap : b'.heap = [root]
  sorted : b'.sorted = order ++ b.sorted
  codes : b'.codes = b.codes
  leaves : ((root :: order).filter (· < b.codes)).Perm (b.heap.filter (· < b.codes))
  length : b'.tree.dl.length = b.tree.dl.length
  spreads : ∀ (fc : List Nat) (sizes : Sizes), Spreads desc b.codes b.heap b.tree.dl node
    (order.foldl (firstPass desc fc b.codes) (passStart b'.tree.dl root sizes))

theorem mergeLoop_merged {desc : StaticDesc} (hm : 1 ≤ desc.maxLength)
    (hmax : desc.maxLength ≤ maxBits) {rounds node : Nat} {b : Building}
    (hrounds : b.heap.length ≤ rounds) (hpos : 1 ≤ b.heap.length) (hnodup : b.heap.Nodup)
    (hlt : ∀ x ∈ b.heap, x < node) (hroom : node + b.heap.length ≤ b.tree.dl.length + 1)
    (hcodes : b.codes ≤ node) :
    ∃ root order, Merged desc b node (mergeLoop rounds node b) root order := by
  induction rounds generalizing node b with
  | zero => omega
  | succ rounds ih =>
      rw [mergeLoop]
      by_cases htwo : 2 ≤ b.heap.length
      · rw [if_pos htwo]
        obtain ⟨n, m, rest, hperm, hperm', hsorted, hdl, hcodes'⟩ := mergeStep_spec htwo node
        have hlength := hperm.length_eq
        have hlength' := hperm'.length_eq
        rw [List.length_cons] at hlength hlength'
        rw [List.length_cons] at hlength
        have hrest : ∀ x ∈ rest, x ∈ b.heap := fun x hx =>
          hperm.mem_iff.mpr (List.mem_cons_of_mem n (List.mem_cons_of_mem m hx))
        have hnodup' : (mergeStep node b).heap.Nodup := by
          refine hperm'.nodup_iff.mpr (List.nodup_cons.mpr ⟨?_, ?_⟩)
          · exact fun hx => Nat.lt_irrefl node (hlt node (hrest node hx))
          · exact (List.nodup_cons.mp (List.nodup_cons.mp (hperm.nodup_iff.mp hnodup)).2).2
        have hlt' : ∀ x ∈ (mergeStep node b).heap, x < node + 1 := by
          intro x hx
          rcases List.mem_cons.mp (hperm'.mem_iff.mp hx) with rfl | hx
          · exact Nat.lt_succ_self _
          · exact Nat.lt_succ_of_lt (hlt x (hrest x hx))
        have hdlLength : (mergeStep node b).tree.dl.length = b.tree.dl.length := by
          rw [hdl, List.length_set, List.length_set]
        obtain ⟨root, order, h⟩ := @ih (node + 1) (mergeStep node b) (by omega) (by omega) hnodup'
          hlt' (by omega) (by omega)
        refine ⟨root, order ++ [m, n], h.heap, ?_, h.codes.trans hcodes', ?_,
          h.length.trans hdlLength, ?_⟩
        · rw [h.sorted, hsorted, List.append_assoc]
          rfl
        · -- the father is no element, and the two sons are as they are in the heap
          have hleaves := h.leaves
          rw [hcodes'] at hleaves
          have hfather : (mergeStep node b).heap.filter (· < b.codes) |>.Perm
              (rest.filter (· < b.codes)) := by
            have hfilter := hperm'.filter (· < b.codes)
            rw [List.filter_cons_of_neg] at hfilter
            · exact hfilter
            · rw [decide_eq_true_iff]
              omega
          have hsons : (n :: m :: rest).Perm (rest ++ [m, n]) := by
            have hswap : ([m, n] ++ rest).Perm (rest ++ [m, n]) := List.perm_append_comm
            exact (List.Perm.swap m n rest).trans hswap
          rw [← List.cons_append, List.filter_append]
          refine ((hleaves.trans hfather).append_right _).trans ?_
          rw [← List.filter_append]
          exact ((hperm.trans hsons).filter _).symm
        · intro fc sizes
          have hspreads := h.spreads fc sizes
          rw [hcodes', hdl] at hspreads
          rw [List.foldl_append]
          exact hspreads.step hm hmax hperm hperm' hnodup hlt (by omega) hcodes
      · rw [if_neg htwo]
        obtain ⟨root, hroot⟩ := List.length_eq_one_iff.mp (show b.heap.length = 1 by omega)
        have hrootlt : root < b.tree.dl.length := by
          have := hlt root (hroot ▸ List.mem_singleton_self root)
          omega
        refine ⟨root, [], hroot, rfl, rfl, by rw [hroot], rfl, ?_⟩
        intro fc sizes
        rw [hroot]
        exact spreads_start desc hrootlt sizes

end Trees
