import Dockerfiles.Zlib.TreesFlush

/-! # Frequencies

What `_tr_tally` and `scan_tree` count is what occurs, so that each symbol that a block
needs has a word in its tree.
-/

namespace Trees

open Puff (entry entry_set entry_modify)
open Canonical (len)

theorem entry_addFreq (tree : Tree) (k c n : Nat) :
    entry (tree.addFreq k c).fc n =
      if n = k ∧ k < tree.fc.length then (entry tree.fc n + c) % 2 ^ 16 else entry tree.fc n :=
  entry_modify tree.fc _ k n

theorem length_addFreq (tree : Tree) (k c : Nat) :
    (tree.addFreq k c).fc.length = tree.fc.length := List.length_modify ..

/-- `Freq` grows by as much as it should while it does not wrap around. -/
theorem entry_addFreq_of_lt {tree : Tree} {k c n : Nat} (hk : k < tree.fc.length)
    (hbound : entry tree.fc n + c < 2 ^ 16) :
    entry (tree.addFreq k c).fc n = entry tree.fc n + if k = n then c else 0 := by
  rw [entry_addFreq]
  by_cases h : n = k
  · rw [if_pos ⟨h, hk⟩, if_pos h.symm, Nat.mod_eq_of_lt hbound]
  · rw [if_neg (fun hx => h hx.1), if_neg (Ne.symm h), Nat.add_zero]

/-! ## Lengths -/

def occurs (xs : List Item) (n : Nat) : Nat := xs.countP fun i => decide (i.symbol = n)

theorem occurs_cons (i : Item) (xs : List Item) (n : Nat) :
    occurs (i :: xs) n = occurs xs n + if i.symbol = n then 1 else 0 := by
  rw [occurs, occurs, List.countP_cons]
  by_cases h : i.symbol = n
  · rw [if_pos h, if_pos (decide_eq_true h)]
  · rw [if_neg h, if_neg (by rw [decide_eq_true_iff]; exact h)]

theorem occurs_pos {xs : List Item} {i : Item} (h : i ∈ xs) : 1 ≤ occurs xs i.symbol :=
  List.countP_pos_iff.mpr ⟨i, h, decide_eq_true rfl⟩

theorem occurs_replicate (l count n : Nat) :
    occurs (List.replicate count ⟨l, 0, 0⟩) n = if l = n then count else 0 := by
  rw [occurs, List.countP_replicate]
  by_cases h : l = n
  · rw [if_pos h, if_pos (decide_eq_true h)]
  · rw [if_neg h, if_neg (by rw [decide_eq_true_iff]; exact h)]

/-- A run is counted with the symbols it is sent with. -/
theorem atRun_scanRun {tree : Tree} {r : Run} (hlength : 19 ≤ tree.fc.length)
    (hcurlen : r.curlen < 16)
    (hbound : ∀ n, n < 19 → entry tree.fc n + r.items.length < 2 ^ 16) :
    (atRun scanRun tree r).fc.length = tree.fc.length ∧
      ∀ n, n < 19 → entry (atRun scanRun tree r).fc n = entry tree.fc n + occurs r.items n := by
  have hone : ∀ {k : Nat}, k < 19 → (∀ n, n < 19 → entry tree.fc n + 1 < 2 ^ 16) →
      ∀ n, n < 19 → ∀ need value,
        entry (tree.addFreq k 1).fc n = entry tree.fc n + occurs [⟨k, need, value⟩] n := by
    intro k hk hb n hn need value
    rw [entry_addFreq_of_lt (by omega) (hb n hn), occurs_cons]
    show _ = _ + (0 + _)
    rw [Nat.zero_add]
  rw [atRun, scanRun]
  rw [Run.items] at hbound ⊢
  split
  · next hshort =>
      rw [if_pos hshort, List.length_replicate] at hbound
      refine ⟨length_addFreq .., fun n hn => ?_⟩
      rw [entry_addFreq_of_lt (by omega) (hbound n hn), occurs_replicate]
  · next hlong =>
      rw [if_neg hlong] at hbound
      split
      · next hzero =>
          rw [if_pos hzero] at hbound
          split
          · next hnew =>
              rw [if_pos hnew] at hbound
              refine ⟨(length_addFreq ..).trans (length_addFreq ..), fun n hn => ?_⟩
              have hroom : entry tree.fc n + 2 < 2 ^ 16 := hbound n hn
              have hfirst : entry (tree.addFreq r.curlen 1).fc n =
                  entry tree.fc n + if r.curlen = n then 1 else 0 :=
                entry_addFreq_of_lt (by omega) (by omega)
              have htwo : occurs [⟨r.curlen, 0, 0⟩, ⟨16, 2, r.count - 1 - 3⟩] n =
                  (0 + if 16 = n then 1 else 0) + if r.curlen = n then 1 else 0 := by
                rw [occurs_cons, occurs_cons]
                rfl
              rw [entry_addFreq_of_lt (by rw [length_addFreq]; omega)
                (by rw [hfirst]; split <;> omega), hfirst, htwo]
              omega
          · next hsame =>
              rw [if_neg hsame] at hbound
              exact ⟨length_addFreq .., fun n hn => hone (by decide) hbound n hn _ _⟩
      · next hzero =>
          rw [if_neg hzero] at hbound
          split
          · next hfew =>
              rw [if_pos hfew] at hbound
              exact ⟨length_addFreq .., fun n hn => hone (by decide) hbound n hn _ _⟩
          · next hmany =>
              rw [if_neg hmany] at hbound
              exact ⟨length_addFreq .., fun n hn => hone (by decide) hbound n hn _ _⟩

theorem foldl_scanRun {tree : Tree} {prevlen : Option Nat} {rs : List Run} {lens : List Nat}
    (h : RunsOf prevlen rs lens) (hlens : ∀ l ∈ lens, l < 16) (hlength : 19 ≤ tree.fc.length)
    (hbound : ∀ n, n < 19 → entry tree.fc n + (rs.flatMap Run.items).length < 2 ^ 16) :
    (rs.foldl (atRun scanRun) tree).fc.length = tree.fc.length ∧
      ∀ n, n < 19 → entry (rs.foldl (atRun scanRun) tree).fc n =
        entry tree.fc n + occurs (rs.flatMap Run.items) n := by
  induction h generalizing tree with
  | nil prevlen => exact ⟨rfl, fun n _ => rfl⟩
  | @cons r rs lens hpos hmax hmin h ih =>
      have hcurlen : r.curlen < 16 :=
        hlens r.curlen (List.mem_append_left _ (List.mem_replicate.mpr ⟨by omega, rfl⟩))
      simp only [List.flatMap_cons, List.length_append] at hbound
      obtain ⟨hlen1, hentry1⟩ := atRun_scanRun hlength hcurlen fun n hn => by
        have := hbound n hn
        omega
      have hle : ∀ n, occurs r.items n ≤ r.items.length := fun n => List.countP_le_length
      obtain ⟨hlen2, hentry2⟩ := @ih (atRun scanRun tree r)
        (fun l hl => hlens l (List.mem_append_right _ hl)) (by rw [hlen1]; exact hlength)
        (fun n hn => by
          have := hbound n hn
          have := hle n
          rw [hentry1 n hn]
          omega)
      rw [List.foldl_cons]
      refine ⟨hlen2.trans hlen1, fun n hn => ?_⟩
      rw [hentry2 n hn, hentry1 n hn, List.flatMap_cons, occurs, occurs, occurs, List.countP_append,
        Nat.add_assoc]

/-- There is no symbol without a length. -/
theorem Adds.length_items_le {acc acc' : List Nat} {xs : List Item} (h : Adds acc xs acc') :
    acc.length + xs.length ≤ acc'.length := by
  induction h with
  | nil acc => exact Nat.le_refl _
  | cons h h' ih =>
      have := h.length_lt
      rw [List.length_cons]
      omega

theorem scanTree_occurs {tree : Tree} {lens : List Nat} (hlens : ∀ l ∈ lens, l < 16)
    (hlength : 19 ≤ tree.fc.length)
    (hbound : ∀ n, n < 19 → entry tree.fc n + lens.length < 2 ^ 16) :
    (scanTree lens tree).fc.length = tree.fc.length ∧
      ∀ n, n < 19 → entry (scanTree lens tree).fc n = entry tree.fc n + occurs (items lens) n := by
  have hguard : ∀ l ∈ lens, l ≠ 0xffff := by
    rintro l hl rfl
    exact absurd (hlens _ hl) (by decide)
  have hle := (items_adds hlens []).length_items_le
  rw [List.nil_append, List.length_nil, Nat.zero_add] at hle
  rw [scanTree, treeRuns_eq_foldl]
  refine foldl_scanRun (runs_runsOf hguard) hlens hlength fun n hn => ?_
  have := hbound n hn
  rw [items] at hle
  omega

theorem scanRun_dl (tree : Tree) (r : Run) : (atRun scanRun tree r).dl = tree.dl := by
  rw [atRun, scanRun]
  repeat' split
  all_goals rfl

theorem scanTree_dl (lens : List Nat) (tree : Tree) : (scanTree lens tree).dl = tree.dl := by
  rw [scanTree, treeRuns_eq_foldl]
  generalize runs lens = rs
  induction rs generalizing tree with
  | nil => rfl
  | cons r rs ih => rw [List.foldl_cons, ih, scanRun_dl]

end Trees
