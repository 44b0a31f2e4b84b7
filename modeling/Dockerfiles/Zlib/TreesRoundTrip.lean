import Dockerfiles.Zlib.TreesFreq
import Dockerfiles.Zlib.TreesOverlay

/-! # The round trip

Whatever is tallied and flushed, in whatever order with aligned and stored blocks, `puff`
reads it back as the data, as long as the arrays that share `pending_buf` do.
-/

namespace Trees

open Zlib (Bytef)
open Puff (entry entry_set entry_modify)
open Canonical (IsComplete len)

/-! ## What is counted -/

/-- The symbol of a byte, or of the length of a match. -/
def Tally.lcode (t : Tally) : Nat := if t.dist = 0 then t.lc else entry lengthCode t.lc + 256 + 1

/-- The trees count the bytes and matches that were tallied. -/
structure Counting (s : DeflateState) (tallied : List Tally) : Prop where
  kept : s.tallied = tallied
  room : s.litBufsize ≤ 2 ^ 15
  ltree : s.dynLtree.fc.length = 573 ∧ s.dynLtree.dl.length = 573
  dtree : s.dynDtree.fc.length = 61 ∧ s.dynDtree.dl.length = 61
  blTree : s.blTree.fc.length = 39 ∧ s.blTree.dl.length = 39
  lfreq : ∀ n, n < 286 → entry s.dynLtree.fc n =
    (tallied.countP fun t => decide (t.lcode = n)) + if n = 256 then 1 else 0
  dfreq : ∀ n, n < 30 → entry s.dynDtree.fc n =
    tallied.countP fun t => decide (t.dist ≠ 0 ∧ dCode (t.dist - 1) = n)
  blfreq : ∀ n, n < 19 → entry s.blTree.fc n = 0

theorem countP_snoc (p : Tally → Prop) [DecidablePred p] (tallied : List Tally) (t : Tally) :
    ((tallied ++ [t]).countP fun x => decide (p x)) =
      (tallied.countP fun x => decide (p x)) + if p t then 1 else 0 := by
  rw [List.countP_append, List.countP_singleton]
  by_cases h : p t
  · rw [if_pos h, if_pos (decide_eq_true h)]
  · rw [if_neg h, if_neg (by rw [decide_eq_true_iff]; exact h)]

theorem trTally_counting {s : DeflateState} {tallied : List Tally} (h : Counting s tallied)
    {t : Tally} (ht : t.Valid) (hfew : tallied.length + 2 < 2 ^ 16) :
    Counting (trTally s t) (tallied ++ [t]) := by
  have hlc := ht.lc_lt
  have hdist := ht.dist_le
  have hentered : ({ dist := t.dist % 2 ^ 16, lc := t.lc % 2 ^ 8 } : Tally) = t := by
    rw [Nat.mod_eq_of_lt (by omega), Nat.mod_eq_of_lt (show t.lc < 2 ^ 8 from hlc)]
  have hlbound : ∀ n, n < 286 → entry s.dynLtree.fc n + 1 < 2 ^ 16 := by
    intro n hn
    have hle : (tallied.countP fun t => decide (t.lcode = n)) ≤ tallied.length :=
      List.countP_le_length
    rw [h.lfreq n hn]
    split <;> omega
  have hdbound : ∀ n, n < 30 → entry s.dynDtree.fc n + 1 < 2 ^ 16 := by
    intro n hn
    have hle : (tallied.countP fun t => decide (t.dist ≠ 0 ∧ dCode (t.dist - 1) = n)) ≤
        tallied.length := List.countP_le_length
    rw [h.dfreq n hn]
    omega
  have hl := h.ltree
  have hd := h.dtree
  rw [trTally]
  dsimp only
  rw [hentered]
  by_cases hzero : t.dist = 0
  · have hlcode : t.lcode = t.lc := if_pos hzero
    rw [if_pos hzero]
    refine ⟨by rw [h.kept], h.room, ⟨(length_addFreq ..).trans hl.1, hl.2⟩, hd, h.blTree, ?_, ?_,
      h.blfreq⟩
    · intro n hn
      show entry (s.dynLtree.addFreq t.lc 1).fc n = _
      rw [entry_addFreq_of_lt (by omega) (hlbound n hn), h.lfreq n hn,
        countP_snoc fun t => t.lcode = n, hlcode]
      omega
    · intro n hn
      rw [countP_snoc fun t => t.dist ≠ 0 ∧ dCode (t.dist - 1) = n, if_neg (fun hx => hx.1 hzero)]
      exact h.dfreq n hn
  · obtain ⟨hcode, -⟩ := lengthCode_spec hlc
    obtain ⟨hdcode, -⟩ := dCode_spec (show t.dist - 1 < 32768 by omega)
    have hlcode : t.lcode = entry lengthCode t.lc + 256 + 1 := if_neg hzero
    rw [if_neg hzero]
    refine ⟨by rw [h.kept], h.room, ⟨(length_addFreq ..).trans hl.1, hl.2⟩,
      ⟨(length_addFreq ..).trans hd.1, hd.2⟩, h.blTree, ?_, ?_, h.blfreq⟩
    · intro n hn
      show entry (s.dynLtree.addFreq (entry lengthCode t.lc + 256 + 1) 1).fc n = _
      rw [entry_addFreq_of_lt (by omega) (hlbound n hn), h.lfreq n hn,
        countP_snoc fun t => t.lcode = n, hlcode]
      omega
    · intro n hn
      show entry (s.dynDtree.addFreq (dCode (t.dist - 1)) 1).fc n = _
      rw [entry_addFreq_of_lt (by omega) (hdbound n hn), h.dfreq n hn,
        countP_snoc fun t => t.dist ≠ 0 ∧ dCode (t.dist - 1) = n]
      by_cases hn' : dCode (t.dist - 1) = n
      · rw [if_pos hn', if_pos ⟨hzero, hn'⟩]
      · rw [if_neg hn', if_neg (fun hx => hn' hx.2)]

/-- Where an entry lies is told by `flushed` and `litBufsize`. -/
def DeflateState.SamePlace (s s' : DeflateState) : Prop :=
  s'.out = s.out ∧ s'.flushed = s.flushed ∧ s'.litBufsize = s.litBufsize

theorem trTally_samePlace {s : DeflateState}
    (h : s.out.pending.length ≤ s.flushed + s.litBufsize) (t : Tally) :
    s.SamePlace (trTally s t) := by
  rw [trTally]
  dsimp only
  rw [enter_of_le h]
  split <;> exact ⟨rfl, rfl, rfl⟩

theorem foldl_trTally_counting {s : DeflateState} {before tallied : List Tally}
    (h : Counting s before) (hvalid : ∀ t ∈ tallied, t.Valid)
    (hfew : before.length + tallied.length + 1 < 2 ^ 16)
    (hclear : s.out.pending.length ≤ s.flushed + s.litBufsize) :
    Counting (tallied.foldl trTally s) (before ++ tallied) ∧
      s.SamePlace (tallied.foldl trTally s) := by
  induction tallied generalizing s before with
  | nil =>
      rw [List.append_nil]
      exact ⟨h, rfl, rfl, rfl⟩
  | cons t tallied ih =>
      rw [List.length_cons] at hfew
      have hone := trTally_counting h (hvalid t List.mem_cons_self) (by omega)
      obtain ⟨hout, hflushed, hsize⟩ := trTally_samePlace hclear t
      obtain ⟨hall, hout', hflushed', hsize'⟩ := ih hone
        (fun x hx => hvalid x (List.mem_cons_of_mem t hx))
        (by rw [List.length_append, List.length_singleton]; omega)
        (by rw [hout, hflushed, hsize]; exact hclear)
      rw [List.append_assoc, List.singleton_append] at hall
      rw [List.foldl_cons]
      exact ⟨hall, hout'.trans hout, hflushed'.trans hflushed, hsize'.trans hsize⟩

theorem length_clear {tree : Tree} {elems : Nat} (h : elems ≤ tree.fc.length) :
    (tree.clear elems).fc.length = tree.fc.length := by
  rw [Tree.clear, List.length_append, List.length_replicate, List.length_drop]
  omega

theorem entry_clear (tree : Tree) {elems n : Nat} (hn : n < elems) :
    entry (tree.clear elems).fc n = 0 := by
  rw [Tree.clear, entry, List.getD_eq_getElem?_getD,
    List.getElem?_append_left (by rwa [List.length_replicate]), List.getElem?_replicate,
    if_pos hn, Option.getD_some]

/-- A new block has counted nothing but its end. -/
theorem initBlock_counting {s : DeflateState} (hroom : s.litBufsize ≤ 2 ^ 15)
    (hl : s.dynLtree.fc.length = 573 ∧ s.dynLtree.dl.length = 573)
    (hd : s.dynDtree.fc.length = 61 ∧ s.dynDtree.dl.length = 61)
    (hb : s.blTree.fc.length = 39 ∧ s.blTree.dl.length = 39) : Counting (initBlock s) [] := by
  refine ⟨rfl, hroom, ⟨?_, hl.2⟩, ⟨?_, hd.2⟩, ⟨?_, hb.2⟩, ?_, ?_, ?_⟩
  · show ((s.dynLtree.clear 286).fc.set 256 1).length = 573
    rw [List.length_set, length_clear (by omega), hl.1]
  · exact (length_clear (by omega)).trans hd.1
  · exact (length_clear (by omega)).trans hb.1
  · intro n hn
    show entry ((s.dynLtree.clear 286).fc.set 256 1) n = _
    rw [entry_set, length_clear (by omega), hl.1, entry_clear _ hn, List.countP_nil, Nat.zero_add]
    by_cases hend : n = 256
    · rw [if_pos ⟨hend, by decide⟩, if_pos hend]
    · rw [if_neg (fun hx => hend hx.1), if_neg hend]
  · exact fun n hn => entry_clear _ hn
  · exact fun n hn => entry_clear _ hn

theorem initState_counting {memLevel : Nat} (hmem : memLevel ≤ 9) :
    Counting (initState memLevel) [] := by
  have hroom : 1 <<< (memLevel + 6) ≤ 2 ^ 15 := by
    rw [Nat.one_shiftLeft]
    exact Nat.pow_le_pow_right (by decide) (by omega)
  refine initBlock_counting hroom ⟨?_, ?_⟩ ⟨?_, ?_⟩ ⟨?_, ?_⟩
  all_goals exact List.length_replicate

/-- Nothing is counted when bits are sent. -/
theorem Counting.withOut {s : DeflateState} {tallied : List Tally} (h : Counting s tallied)
    (out : Out) (flushed : Nat) : Counting { s with out, flushed } tallied :=
  ⟨h.kept, h.room, h.ltree, h.dtree, h.blTree, h.lfreq, h.dfreq, h.blfreq⟩

/-! ## The trees of a block -/

/-- All elements of a tree that was built, with zeros behind the last one that is used. -/
theorem Complete.padded {desc : StaticDesc} {tree : Tree} {built : Built}
    (h : Complete desc tree built) (hlength : desc.elems ≤ built.tree.dl.length) :
    Coded built.tree (built.tree.dl.take desc.elems) ∧
      IsComplete (built.tree.dl.take desc.elems) maxBits ∧
      ∀ n, len (built.tree.dl.take desc.elems) n = len (built.tree.dl.take built.codes) n := by
  have hcodes := h.codes_le
  have hpad : built.tree.dl.take desc.elems =
      built.tree.dl.take built.codes ++ List.replicate (desc.elems - built.codes) 0 := by
    refine eq_of_len ?_ fun n hn => ?_
    · rw [List.length_append, List.length_take, List.length_take, List.length_replicate]
      omega
    · rw [List.length_take] at hn
      rw [Canonical.len_append_zeros, len, len, List.getD_eq_getElem?_getD,
        List.getD_eq_getElem?_getD, List.getElem?_take_of_lt (by omega)]
      by_cases hn' : n < built.codes
      · rw [List.getElem?_take_of_lt hn']
      · rw [List.getElem?_eq_none (l := built.tree.dl.take built.codes)
          (by rw [List.length_take]; omega), ← List.getD_eq_getElem?_getD]
        exact h.zero n (by omega) (by omega)
  have hcomplete := h.complete.append_zeros (desc.elems - built.codes)
  rw [← hpad] at hcomplete
  have hlen : ∀ n, len (built.tree.dl.take desc.elems) n =
      len (built.tree.dl.take built.codes) n := by
    intro n
    rw [hpad, Canonical.len_append_zeros]
  refine ⟨⟨hcomplete.isCode, ?_, ?_⟩, hcomplete, hlen⟩
  · intro n hn
    rw [List.length_take] at hn
    rw [len, entry, List.getD_eq_getElem?_getD, List.getD_eq_getElem?_getD,
      List.getElem?_take_of_lt (by omega)]
  · intro n hn
    rw [hlen] at hn
    rw [h.coded.fc n hn, hlen, hpad, Canonical.word_append_zeros _ _ hn]

theorem maxBlindex_le (dl : List Nat) (k : Nat) : maxBlindex dl k ≤ k := by
  induction k with
  | zero => exact Nat.le_refl 0
  | succ k ih =>
      rw [maxBlindex]
      split
      · omega
      · exact Nat.le_refl _

/-- The lengths behind `max_blindex` are zero. -/
theorem maxBlindex_zero {dl : List Nat} {k j : Nat} (hlt : maxBlindex dl k < j) (hj : j ≤ k) :
    3 ≤ j ∧ entry dl (entry blOrder j) = 0 := by
  induction k with
  | zero => omega
  | succ k ih =>
      rw [maxBlindex] at hlt
      split at hlt
      · next hzero =>
          by_cases hjk : j = k + 1
          · rw [hjk]
            exact hzero
          · exact ih hlt (by omega)
      · omega

theorem Item.Adds.symbol_lt {i : Item} {acc acc' : List Nat} (h : i.Adds acc acc') :
    i.symbol < 19 := by
  cases h with
  | one hl => exact Nat.lt_trans hl (by decide)
  | again hlast hk => exact show 16 < 19 by decide
  | zeros hk => exact show 17 < 19 by decide
  | moreZeros hk => exact show 18 < 19 by decide

theorem Adds.symbol_lt {acc acc' : List Nat} {xs : List Item} (h : Adds acc xs acc') :
    ∀ i ∈ xs, i.symbol < 19 := by
  induction h with
  | nil acc =>
      intro i hi
      cases hi
  | cons h h' ih => exact List.forall_mem_cons.mpr ⟨h.symbol_lt, ih⟩

/-- Symbols of runs alone say nothing but zeros. -/
theorem Item.Adds.zero {i : Item} {acc acc' : List Nat} (h : i.Adds acc acc')
    (hi : 16 ≤ i.symbol) (hzero : ∀ l ∈ acc, l = 0) : ∀ l ∈ acc', l = 0 := by
  cases h with
  | one hl => exact absurd hi (Nat.not_le.mpr hl)
  | again hlast hk =>
      intro l hl
      rcases List.mem_append.mp hl with hl | hl
      · exact hzero l hl
      · rw [(List.mem_replicate.mp hl).2]
        exact hzero _ (List.mem_of_getLast? hlast)
  | zeros hk =>
      intro l hl
      exact (List.mem_append.mp hl).elim (hzero l) fun hl => (List.mem_replicate.mp hl).2
  | moreZeros hk =>
      intro l hl
      exact (List.mem_append.mp hl).elim (hzero l) fun hl => (List.mem_replicate.mp hl).2

theorem Adds.zero {acc acc' : List Nat} {xs : List Item} (h : Adds acc xs acc')
    (hxs : ∀ i ∈ xs, 16 ≤ i.symbol) (hzero : ∀ l ∈ acc, l = 0) : ∀ l ∈ acc', l = 0 := by
  induction h with
  | nil acc => exact hzero
  | cons h h' ih =>
      exact ih (fun x hx => hxs x (List.mem_cons_of_mem _ hx))
        (h.zero (hxs _ List.mem_cons_self) hzero)

theorem blOrder_index : ∀ n, n < 16 → ∃ j, j < 19 ∧ 3 ≤ j ∧ entry blOrder j = n := by decide

section Prepared

variable {s : DeflateState} {tallied : List Tally}

theorem Counting.ltree_complete (h : Counting s tallied) :
    Complete staticLDesc s.dynLtree (prepare s).ltree := by
  have hl := h.ltree
  exact buildTree_complete staticLDesc_valid (show 2 * 286 ≤ _ by omega)
    (show 286 ≤ _ by omega) s.sizes

theorem Counting.dtree_complete (h : Counting s tallied) :
    Complete staticDDesc s.dynDtree (prepare s).dtree := by
  have hd := h.dtree
  exact buildTree_complete staticDDesc_valid (show 2 * 30 ≤ _ by omega)
    (show 30 ≤ _ by omega) (prepare s).ltree.sizes

def Prepared.ll (p : Prepared) : List Nat := p.ltree.tree.dl.take p.ltree.codes

def Prepared.dl (p : Prepared) : List Nat := p.dtree.tree.dl.take p.dtree.codes

def Prepared.bls (p : Prepared) : List Nat := p.blTree.tree.dl.take 19

theorem Counting.length_ll (h : Counting s tallied) :
    (prepare s).ll.length = (prepare s).ltree.codes := by
  have hcodes : (prepare s).ltree.codes ≤ 286 := h.ltree_complete.codes_le.2
  have hlength := h.ltree_complete.dl_length
  have hl := h.ltree
  rw [Prepared.ll, List.length_take]
  omega

theorem Counting.length_dl (h : Counting s tallied) :
    (prepare s).dl.length = (prepare s).dtree.codes := by
  have hcodes : (prepare s).dtree.codes ≤ 30 := h.dtree_complete.codes_le.2
  have hlength := h.dtree_complete.dl_length
  have hd := h.dtree
  rw [Prepared.dl, List.length_take]
  omega

/-- The symbols that the lengths are sent with were counted. -/
theorem Counting.scanned (h : Counting s tallied) :
    ∃ scanned : Tree, Complete staticBlDesc scanned (prepare s).blTree ∧
      scanned.dl.length = 39 ∧ scanned.fc.length = 39 ∧
      ∀ i ∈ items (prepare s).ll ++ items (prepare s).dl, entry scanned.fc i.symbol ≠ 0 := by
  have hll := lt_of_isCode h.ltree_complete.complete.isCode
  have hdl := lt_of_isCode h.dtree_complete.complete.isCode
  have hllLength := h.length_ll
  have hdlLength := h.length_dl
  have hlcodes : (prepare s).ltree.codes ≤ 286 := h.ltree_complete.codes_le.2
  have hdcodes : (prepare s).dtree.codes ≤ 30 := h.dtree_complete.codes_le.2
  have hb := h.blTree
  obtain ⟨hlen1, hocc1⟩ := @scanTree_occurs s.blTree (prepare s).ll hll (by omega)
    (fun n hn => by rw [h.blfreq n hn]; omega)
  have hadds1 := items_adds hll []
  have hadds2 := items_adds hdl []
  have hle1 := hadds1.length_items_le
  rw [List.nil_append, List.length_nil, Nat.zero_add] at hle1
  obtain ⟨hlen2, hocc2⟩ := @scanTree_occurs (scanTree (prepare s).ll s.blTree) (prepare s).dl hdl
    (by omega) (fun n hn => by
      have hle : occurs (items (prepare s).ll) n ≤ (items (prepare s).ll).length :=
        List.countP_le_length
      have hle' : (items (prepare s).ll).length ≤ (prepare s).ll.length := hle1
      rw [hocc1 n hn, h.blfreq n hn]
      omega)
  have hscanned : (scanTree (prepare s).dl (scanTree (prepare s).ll s.blTree)).dl.length = 39 := by
    rw [scanTree_dl, scanTree_dl, hb.2]
  refine ⟨scanTree (prepare s).dl (scanTree (prepare s).ll s.blTree), ?_, hscanned, by omega, ?_⟩
  · exact buildTree_complete staticBlDesc_valid (show 2 * 19 ≤ _ by omega)
      (show 19 ≤ _ by omega) (prepare s).dtree.sizes
  · intro i hi
    rcases List.mem_append.mp hi with hi | hi
    · have hlt := hadds1.symbol_lt i hi
      have hpos := occurs_pos hi
      rw [hocc2 _ hlt, hocc1 _ hlt]
      omega
    · have hlt := hadds2.symbol_lt i hi
      have hpos := occurs_pos hi
      rw [hocc2 _ hlt]
      omega

/-- The end of the block has a word. -/
theorem Counting.has_end (h : Counting s tallied) : len (prepare s).ll 256 ≠ 0 := by
  refine h.ltree_complete.has 256 (by decide) ?_
  rw [h.lfreq 256 (by decide), if_pos rfl]
  omega

/-- The tree for lengths has words for what the lengths are sent with. -/
theorem Counting.bls_spec (h : Counting s tallied) :
    Coded (prepare s).blTree.tree (prepare s).bls ∧ IsComplete (prepare s).bls maxBits ∧
      (prepare s).bls.length = 19 ∧ (∀ n, len (prepare s).bls n ≤ 7) ∧
      ∀ i ∈ items (prepare s).ll ++ items (prepare s).dl, len (prepare s).bls i.symbol ≠ 0 := by
  obtain ⟨scanned, hbl, hdlLength, -, hscanned⟩ := h.scanned
  have hblLength := hbl.dl_length
  obtain ⟨hcoded, hcomplete, hlen⟩ := hbl.padded (show 19 ≤ _ by omega)
  refine ⟨hcoded, hcomplete, ?_, fun n => (hlen n).trans_le (hbl.le n), ?_⟩
  · rw [Prepared.bls, List.length_take]
    omega
  · intro i hi
    have hlt : i.symbol < 19 := by
      rcases List.mem_append.mp hi with hi | hi
      · exact (items_adds (lt_of_isCode h.ltree_complete.complete.isCode) []).symbol_lt i hi
      · exact (items_adds (lt_of_isCode h.dtree_complete.complete.isCode) []).symbol_lt i hi
    refine fun hzero => hbl.has i.symbol hlt (hscanned i hi) ?_
    rw [← hlen]
    exact hzero

/-- Some length is sent as itself, since not all of them are zero. -/
theorem three_le_maxBlindex {dl ll : List Nat} (hll : ∀ l ∈ ll, l < 16) (hend : len ll 256 ≠ 0)
    (hhas : ∀ i ∈ items ll, entry dl i.symbol ≠ 0) : 3 ≤ maxBlindex dl 18 := by
  by_contra hlt
  have hruns : ∀ i ∈ items ll, 16 ≤ i.symbol := by
    intro i hi
    by_contra hsmall
    obtain ⟨j, hj, hj3, hjn⟩ := blOrder_index i.symbol (by omega)
    obtain ⟨-, hzero⟩ := @maxBlindex_zero dl 18 j (by omega) (by omega)
    rw [hjn] at hzero
    exact hhas i hi hzero
  have hzeros := (items_adds hll []).zero hruns fun l hl => absurd hl List.not_mem_nil
  have hlt256 := Canonical.lt_length_of_len_ne_zero ll hend
  refine hend ?_
  rw [Canonical.len_of_lt ll hlt256]
  exact hzeros _ (List.getElem_mem hlt256)

/-- The lengths that are not sent are zero. -/
theorem entry_of_left_out {dl : List Nat} {n : Nat}
    (hn : n ∈ blOrder.drop (maxBlindex dl 18 + 1)) : entry dl n = 0 := by
  obtain ⟨i, hi, rfl⟩ := List.getElem_of_mem hn
  rw [List.length_drop] at hi
  have hlength : blOrder.length = 19 := rfl
  have hlt : maxBlindex dl 18 + 1 + i < blOrder.length := by omega
  obtain ⟨-, hzero⟩ := @maxBlindex_zero dl 18 (maxBlindex dl 18 + 1 + i) (by omega) (by omega)
  rw [entry_of_lt hlt] at hzero
  rw [List.getElem_drop]
  exact hzero

/-- The trees of a block can be sent. -/
theorem Counting.header (h : Counting s tallied) :
    Header (prepare s).ll (prepare s).dl (prepare s).bls (prepare s).blcodes := by
  obtain ⟨hcoded, hcomplete, hlength, hle, hhas⟩ := h.bls_spec
  have hllLength := h.length_ll
  have hdlLength := h.length_dl
  have hlcodes : (prepare s).ltree.codes ≤ 286 := h.ltree_complete.codes_le.2
  have hdcodes : 2 ≤ (prepare s).dtree.codes ∧ (prepare s).dtree.codes ≤ 30 :=
    h.dtree_complete.codes_le
  have hlt256 := Canonical.lt_length_of_len_ne_zero _ h.has_end
  have hentry : ∀ n, n < 19 → entry (prepare s).blTree.tree.dl n = len (prepare s).bls n :=
    fun n hn => hcoded.dl n (by omega)
  have hll := lt_of_isCode h.ltree_complete.complete.isCode
  have hge := @three_le_maxBlindex (prepare s).blTree.tree.dl (prepare s).ll hll h.has_end
    fun i hi => by
      rw [hentry _ ((items_adds hll []).symbol_lt i hi)]
      exact hhas i (List.mem_append_left _ hi)
  have hle18 := maxBlindex_le (prepare s).blTree.tree.dl 18
  have hblcodes : (prepare s).blcodes = maxBlindex (prepare s).blTree.tree.dl 18 + 1 := rfl
  refine ⟨by omega, by omega, hlength, by omega, h.ltree_complete.complete,
    h.dtree_complete.complete, hcomplete, fun n => Nat.lt_succ_of_le (hle n), ?_, hhas, h.has_end⟩
  intro n hn
  rw [← hentry n (blOrder_lt n (List.mem_of_mem_drop hn))]
  exact entry_of_left_out hn

/-- The symbols of the bytes and matches have words. -/
theorem Counting.has (h : Counting s tallied) (hvalid : ∀ t ∈ tallied, t.Valid) :
    ∀ t ∈ tallied, t.Has (prepare s).ll (prepare s).dl := by
  intro t ht
  have hlc := (hvalid t ht).lc_lt
  have hdist := (hvalid t ht).dist_le
  have hlhas : ∀ n, n < 286 → t.lcode = n → len (prepare s).ll n ≠ 0 := by
    intro n hn hcode
    refine h.ltree_complete.has n hn ?_
    have hpos : 1 ≤ tallied.countP fun t => decide (t.lcode = n) :=
      List.countP_pos_iff.mpr ⟨t, ht, decide_eq_true hcode⟩
    rw [h.lfreq n hn]
    omega
  rw [Tally.Has]
  by_cases hzero : t.dist = 0
  · rw [if_pos hzero]
    exact hlhas t.lc (by omega) (if_pos hzero)
  · obtain ⟨hcode, -⟩ := lengthCode_spec hlc
    obtain ⟨hdcode, -⟩ := dCode_spec (show t.dist - 1 < 32768 by omega)
    rw [if_neg hzero]
    refine ⟨hlhas _ (by omega) (if_neg hzero), ?_⟩
    refine h.dtree_complete.has _ hdcode ?_
    have hpos : 1 ≤ tallied.countP fun x => decide (x.dist ≠ 0 ∧
        dCode (x.dist - 1) = dCode (t.dist - 1)) :=
      List.countP_pos_iff.mpr ⟨t, ht, decide_eq_true ⟨hzero, rfl⟩⟩
    rw [h.dfreq _ hdcode]
    omega

end Prepared

/-! ## Flushing -/

/-- The parameters of `_tr_flush_block`, and what is tallied before it is called. -/
structure Flush where
  level : Nat
  fixed : Bool
  tallied : List Tally
  buf : Option (List Bytef)
  storedLen : Nat

/-- What a call of `_tr_flush_block` is promised: the bytes and matches tell how the data
goes on, unless a stored block is forced, and `buf` has the data, no more than a stored
block can hold. -/
structure Flush.Tells (f : Flush) (out out' : List Bytef) : Prop where
  tells : Trees.Tells out f.tallied out' ∨ (f.level = 0 ∧ f.tallied = [] ∧ f.buf ≠ none)
  buf : ∀ w, f.buf = some w → out' = out ++ w.take f.storedLen ∧ f.storedLen < 2 ^ 16

def Flush.tally (f : Flush) (s : DeflateState) : DeflateState := f.tallied.foldl trTally s

/-- The block that is sent, and the state before it. -/
def Flush.chosen (f : Flush) (s : DeflateState) : Block × DeflateState :=
  blockToSend f.level f.fixed f.buf f.storedLen (f.tally s)

/-- The bytes and matches are tallied, and the block is flushed. -/
def Flush.run (f : Flush) (last : Bool) (s : DeflateState) : DeflateState :=
  trFlushBlock f.level f.fixed f.buf f.storedLen last (f.tally s)

/-- No byte is put behind the end of `pending_buf`. -/
def DeflateState.Fits (s : DeflateState) : Prop :=
  s.out.pending.length ≤ s.flushed + 4 * s.litBufsize

/-- The arrays that lie in `pending_buf` are used one after the other: the block is flushed
when `_tr_tally` asks for it, nothing is pending where its entries are written, and what is
sent of it comes behind those that have been read. -/
structure Flush.Clear (f : Flush) (last : Bool) (s : DeflateState) : Prop where
  few : f.tallied.length < s.litBufsize
  entered : s.out.pending.length ≤ s.flushed + s.litBufsize
  ahead : (f.chosen s).1.Clear s.flushed s.litBufsize last s.out
  fits : (f.run last s).Fits

theorem finishBlock_out {block : Block} {last : Bool} {s : DeflateState}
    (h : block.Clear s.flushed s.litBufsize last s.out) :
    (finishBlock block last s).out =
      if last then biWindup (block.send last s.out) else block.send last s.out := by
  rw [finishBlock, h.sendBlock]
  cases last <;> rfl

theorem finishBlock_counting {block : Block} {last : Bool} {s : DeflateState}
    (hroom : s.litBufsize ≤ 2 ^ 15)
    (hl : s.dynLtree.fc.length = 573 ∧ s.dynLtree.dl.length = 573)
    (hd : s.dynDtree.fc.length = 61 ∧ s.dynDtree.dl.length = 61)
    (hb : s.blTree.fc.length = 39 ∧ s.blTree.dl.length = 39) :
    Counting (finishBlock block last s) [] := by
  have h := @initBlock_counting
    { s with out := sendBlock s.flushed s.litBufsize last block s.out } hroom hl hd hb
  rw [finishBlock]
  cases last with
  | false => exact h
  | true => exact h.withOut _ _

/-- Each kind of block that can be chosen means the same. -/
theorem chooseBlock_means {f : Flush} {last : Bool} {out out' : List Bytef} {s : DeflateState}
    {optLenb staticLenb : BitVec 64} {dynamic : Block} (h : f.Tells out out')
    (hstatic : f.buf = none ∨ ¬ f.storedLen + 4 ≤ optLenb.toNat → Tells out s.tallied out')
    (hdynamic : f.buf = none ∨ ¬ f.storedLen + 4 ≤ optLenb.toNat → staticLenb ≠ optLenb →
      dynamic.Means last out out') :
    (chooseBlock f.fixed s f.buf f.storedLen optLenb staticLenb dynamic).Means last out out' := by
  cases hbuf : f.buf with
  | none =>
      rw [chooseBlock]
      split
      · exact Block.Means.static (hstatic (Or.inl hbuf))
      · next hne => exact hdynamic (Or.inl hbuf) fun heq => hne (Or.inr heq)
  | some w =>
      obtain ⟨hout, hlt⟩ := h.buf w hbuf
      rw [chooseBlock]
      split
      · rw [hout]
        refine Block.Means.stored ?_
        rw [List.length_take]
        omega
      · next hbig =>
          split
          · exact Block.Means.static (hstatic (Or.inr hbig))
          · next hne => exact hdynamic (Or.inr hbig) fun heq => hne (Or.inr heq)

theorem Flush.Tells.valid {f : Flush} {out out' : List Bytef} (h : f.Tells out out') :
    ∀ t ∈ f.tallied, t.Valid := by
  rcases h.tells with htells | ⟨-, hnone, -⟩
  · exact htells.valid
  · rw [hnone]
    exact fun t ht => absurd ht List.not_mem_nil

/-- The block that is chosen means the data, and the trees are still of the same size. -/
theorem Flush.Tells.chosen_spec {f : Flush} {out out' : List Bytef} (h : f.Tells out out')
    {s : DeflateState} (hcounting : Counting s f.tallied) (last : Bool) :
    let chosen := blockToSend f.level f.fixed f.buf f.storedLen s
    chosen.1.Means last out out' ∧ s.SamePlace chosen.2 ∧
      (chosen.2.dynLtree.fc.length = 573 ∧ chosen.2.dynLtree.dl.length = 573) ∧
      (chosen.2.dynDtree.fc.length = 61 ∧ chosen.2.dynDtree.dl.length = 61) ∧
      (chosen.2.blTree.fc.length = 39 ∧ chosen.2.blTree.dl.length = 39) := by
  have hlevel : f.level > 0 → Trees.Tells out f.tallied out' := by
    intro hpos
    rcases h.tells with htells | ⟨hzero, -⟩
    · exact htells
    · omega
  rw [blockToSend]
  by_cases hpos : f.level > 0
  · have htells := hlevel hpos
    have hl := hcounting.ltree_complete
    have hd := hcounting.dtree_complete
    obtain ⟨scanned, hb, hdl, hfc, -⟩ := hcounting.scanned
    have hheader := hcounting.header
    have hcoded := hcounting.bls_spec.1
    rw [if_pos hpos]
    dsimp only
    refine ⟨?_, ⟨rfl, rfl, rfl⟩, ?_, ?_, ?_⟩
    · refine chooseBlock_means h (fun _ => hcounting.kept ▸ htells) (fun _ _ => ?_)
      have hdynamic := @Block.Means.dynamic last out out' f.tallied (prepare s).ltree.tree
        (prepare s).dtree.tree (prepare s).blTree.tree (prepare s).ll (prepare s).dl
        (prepare s).bls (prepare s).blcodes htells hheader hl.coded hd.coded hcoded
        (by rw [hcounting.length_ll]; rfl) (by rw [hcounting.length_dl]; rfl)
        (hcounting.has h.valid)
      rw [hcounting.length_ll, hcounting.length_dl] at hdynamic
      rw [hcounting.kept]
      exact hdynamic
    · exact ⟨hl.fc_length.trans hcounting.ltree.1, hl.dl_length.trans hcounting.ltree.2⟩
    · exact ⟨hd.fc_length.trans hcounting.dtree.1, hd.dl_length.trans hcounting.dtree.2⟩
    · exact ⟨hb.fc_length.trans hfc, hb.dl_length.trans hdl⟩
  · rw [if_neg hpos]
    dsimp only
    refine ⟨?_, ⟨rfl, rfl, rfl⟩, hcounting.ltree, hcounting.dtree, hcounting.blTree⟩
    refine chooseBlock_means h ?_ (fun _ hne => absurd rfl hne)
    -- a block that can be stored is
    intro hnot
    rcases h.tells with htells | ⟨-, -, hsome⟩
    · exact hcounting.kept ▸ htells
    · exfalso
      obtain ⟨w, hw⟩ := Option.ne_none_iff_exists'.mp hsome
      have hlt := (h.buf w hw).2
      rcases hnot with hnone | hbig
      · exact hsome hnone
      · rw [BitVec.toNat_ofNat] at hbig
        omega

/-- A flush sends one block that means the data, and counting starts again. -/
theorem Flush.Tells.run_spec {f : Flush} {out out' : List Bytef} (h : f.Tells out out')
    {s : DeflateState} (hs : Counting s []) {last : Bool} (hc : f.Clear last s) :
    ∃ block : Block, block.Means last out out' ∧
      (f.run last s).out =
        (if last then biWindup (block.send last s.out) else block.send last s.out) ∧
      Counting (f.run last s) [] := by
  have hfew := hc.few
  have hroom := hs.room
  obtain ⟨hcounting, hout, hflushed, hsize⟩ := foldl_trTally_counting hs h.valid
    (by rw [List.length_nil]; omega) hc.entered
  rw [List.nil_append] at hcounting
  obtain ⟨hmeans, ⟨hout', hflushed', hsize'⟩, hl, hd, hb⟩ := h.chosen_spec hcounting last
  have hahead := hc.ahead
  rw [Flush.chosen, Flush.tally] at hahead
  rw [Flush.run, Flush.tally, trFlushBlock]
  generalize blockToSend f.level f.fixed f.buf f.storedLen (f.tallied.foldl trTally s) = chosen
    at hmeans hl hd hb hout' hflushed' hsize' hahead ⊢
  rw [← hout, ← hout', ← hflushed, ← hflushed', ← hsize, ← hsize'] at hahead
  rw [← hsize, ← hsize'] at hroom
  rw [← hout, ← hout']
  exact ⟨chosen.1, hmeans, finishBlock_out hahead, finishBlock_counting hroom hl hd hb⟩

/-! ## Streams -/

/-- What `deflate` does between its calls that fill the buffers. -/
inductive Op where
  | flush (f : Flush)
  | stored (buf : List Bytef)
  | align
  | flushBits
  | flushPending

/-- One of these, before the last block; `flush_pending` copies out what is pending. -/
def Op.run (s : DeflateState) : Op → DeflateState
  | .flush f => f.run false s
  | .stored buf => { s with out := trStoredBlock buf false s.out }
  | .align => { s with out := trAlign s.out }
  | .flushBits => { s with out := biFlush s.out }
  | .flushPending => { s with flushed := s.out.pending.length }

/-- Behind `out`, the operations and at last the flush `f` tell how the data goes on. -/
inductive Op.Tell : List Bytef → List Op → Flush → List Bytef → Prop
  | final {out out' : List Bytef} {f : Flush} (h : f.Tells out out') : Op.Tell out [] f out'
  | flush {out out' out'' : List Bytef} {g f : Flush} {ops : List Op} (h : g.Tells out out')
      (h' : Op.Tell out' ops f out'') : Op.Tell out (.flush g :: ops) f out''
  | stored {out buf out' : List Bytef} {f : Flush} {ops : List Op} (hbuf : buf.length < 2 ^ 16)
      (h : Op.Tell (out ++ buf) ops f out') : Op.Tell out (.stored buf :: ops) f out'
  | align {out out' : List Bytef} {f : Flush} {ops : List Op} (h : Op.Tell out ops f out') :
      Op.Tell out (.align :: ops) f out'
  | flushBits {out out' : List Bytef} {f : Flush} {ops : List Op} (h : Op.Tell out ops f out') :
      Op.Tell out (.flushBits :: ops) f out'
  | flushPending {out out' : List Bytef} {f : Flush} {ops : List Op}
      (h : Op.Tell out ops f out') : Op.Tell out (.flushPending :: ops) f out'

def Op.Keeps (s : DeflateState) : Op → Prop
  | .flush f => f.Clear false s
  | op => (op.run s).Fits

/-- The operations and at last the flush `f` keep to `pending_buf`. -/
def Op.Clear (f : Flush) : List Op → DeflateState → Prop
  | [], s => f.Clear true s
  | op :: ops, s => op.Keeps s ∧ Op.Clear f ops (op.run s)

section Decidable

instance (s : DeflateState) : Decidable s.Fits := inferInstanceAs (Decidable (_ ≤ _))

instance Flush.Clear.decidable (f : Flush) (last : Bool) (s : DeflateState) :
    Decidable (f.Clear last s) :=
  decidable_of_iff
    (f.tallied.length < s.litBufsize ∧ s.out.pending.length ≤ s.flushed + s.litBufsize ∧
      (f.chosen s).1.Clear s.flushed s.litBufsize last s.out ∧ (f.run last s).Fits)
    ⟨fun ⟨few, entered, ahead, fits⟩ => ⟨few, entered, ahead, fits⟩,
      fun h => ⟨h.few, h.entered, h.ahead, h.fits⟩⟩

instance Op.Keeps.decidable (s : DeflateState) : ∀ op : Op, Decidable (op.Keeps s)
  | .flush f => Flush.Clear.decidable f false s
  | .stored _ => inferInstanceAs (Decidable (DeflateState.Fits _))
  | .align => inferInstanceAs (Decidable (DeflateState.Fits _))
  | .flushBits => inferInstanceAs (Decidable (DeflateState.Fits _))
  | .flushPending => inferInstanceAs (Decidable (DeflateState.Fits _))

instance Op.Clear.decidable (f : Flush) : ∀ ops s, Decidable (Op.Clear f ops s)
  | [], s => Flush.Clear.decidable f true s
  | op :: ops, s =>
      have := Op.Clear.decidable f ops (op.run s)
      inferInstanceAs (Decidable (_ ∧ _))

end Decidable

def deflatedBy (memLevel : Nat) (ops : List Op) (f : Flush) : List Bytef :=
  (f.run true (ops.foldl Op.run (initState memLevel))).out.pending

/-- The operations send blocks that mean the data. -/
theorem Op.Tell.delivers {out out' : List Bytef} {ops : List Op} {f : Flush}
    (h : Op.Tell out ops f out') {s : DeflateState} (hs : Counting s []) (hc : Op.Clear f ops s) :
    ∃ blocks final, Delivers out blocks final out' ∧
      (f.run true (ops.foldl Op.run s)).out = sendAll blocks final s.out := by
  induction h generalizing s with
  | final h =>
      obtain ⟨block, hmeans, hout, -⟩ := h.run_spec hs hc
      exact ⟨[], block, Delivers.final hmeans, hout⟩
  | flush h h' ih =>
      obtain ⟨block, hmeans, hout, hcounting⟩ := h.run_spec hs hc.1
      obtain ⟨blocks, final, hdelivers, hall⟩ := ih hcounting hc.2
      refine ⟨some block :: blocks, final, Delivers.block hmeans hdelivers, ?_⟩
      rw [hout] at hall
      rw [sendAll_cons, List.foldl_cons]
      exact hall
  | @stored out buf out' f ops hbuf h ih =>
      obtain ⟨blocks, final, hdelivers, hall⟩ :=
        ih (hs.withOut (trStoredBlock buf false s.out) _) hc.2
      exact ⟨some (.stored buf) :: blocks, final,
        Delivers.block (Block.Means.stored hbuf) hdelivers, hall⟩
  | align h ih =>
      have hsent : sendNext s.out (some .align) = trAlign s.out := by rw [sendNext, Block.send]
      obtain ⟨blocks, final, hdelivers, hall⟩ := ih (hs.withOut (trAlign s.out) _) hc.2
      refine ⟨some .align :: blocks, final,
        Delivers.block (Block.Means.align rfl) hdelivers, ?_⟩
      rw [sendAll_cons, List.foldl_cons, hsent, Op.run]
      generalize trAlign s.out = w at hall ⊢
      exact hall
  | flushBits h ih =>
      obtain ⟨blocks, final, hdelivers, hall⟩ := ih (hs.withOut (biFlush s.out) _) hc.2
      exact ⟨none :: blocks, final, Delivers.flush hdelivers, hall⟩
  | flushPending h ih =>
      -- no byte is put
      exact ih (hs.withOut s.out _) hc.2

theorem initState_out (memLevel : Nat) : (initState memLevel).out = trInit := rfl

/-- `puff` reads what `trees.c` makes of the data as the data, and reads all of it. -/
theorem puff_deflatedBy {memLevel : Nat} (hmem : memLevel ≤ 9) {ops : List Op} {f : Flush}
    {data : List Bytef} (h : Op.Tell [] ops f data) (hc : Op.Clear f ops (initState memLevel))
    {n : Nat} (hroom : data.length ≤ n) (slow : Bool) :
    Puff.puff slow (some n) (deflatedBy memLevel ops f) =
      { err := 0
        out := data
        lengths := some (data.length, (deflatedBy memLevel ops f).length) } := by
  obtain ⟨blocks, final, hdelivers, hall⟩ := h.delivers (initState_counting hmem) hc
  rw [initState_out] at hall
  have hbytes : deflatedBy memLevel ops f = deflated blocks final := congrArg Out.pending hall
  rw [hbytes]
  exact puff_deflated hdelivers hroom slow

/-- A stored block, an empty one, and, when these have been copied out, a byte that is
repeated by a match, whose block is chosen by its size. -/
theorem puff_deflatedBy_mixed :
    Puff.puff false (some 5) (deflatedBy 8 [.stored [65], .align, .flushBits, .flushPending]
        { level := 6, fixed := false, tallied := [⟨0, 66⟩, ⟨1, 0⟩], buf := none, storedLen := 4 }) =
      { err := 0
        out := [65, 66, 66, 66, 66]
        lengths := some (5, (deflatedBy 8 [.stored [65], .align, .flushBits, .flushPending]
          { level := 6, fixed := false, tallied := [⟨0, 66⟩, ⟨1, 0⟩], buf := none,
            storedLen := 4 }).length) } := by
  have htells : Tells [65] [⟨0, 66⟩, ⟨1, 0⟩] [65, 66, 66, 66, 66] :=
    Tells.byte 66 (@Tells.found _ [66, 66, 66] _ _ 1 0 ⟨by decide, by decide, by decide⟩
      (by decide) (by decide) rfl (Tells.nil _))
  have hflush : Flush.Tells
      { level := 6, fixed := false, tallied := [⟨0, 66⟩, ⟨1, 0⟩], buf := none, storedLen := 4 }
      [65] [65, 66, 66, 66, 66] := ⟨Or.inl htells, fun w hw => nomatch hw⟩
  exact puff_deflatedBy (by decide) (Op.Tell.stored (show [65].length < 2 ^ 16 by decide)
    (Op.Tell.align (Op.Tell.flushBits (Op.Tell.flushPending (Op.Tell.final hflush)))))
    (by decide +kernel) (by decide) false

end Trees
