import Dockerfiles.Zlib.TreesRuns

/-! # Dynamic blocks

What `send_all_trees` sends, and that `dynamic` of `puff` reads the lengths back from it
and then, with their codes, the data.
-/

namespace Trees

open Zlib (Bytef)
open Puff (entry State)
open Canonical (IsCode IsComplete len)
open Bits (lsb)

/-! ## What is sent -/

def sendItem (blTree : Tree) (s : Out) (i : Item) : Out :=
  sendExtra i.value i.need (sendCode i.symbol blTree s)

def Item.bits (bls : List Nat) (i : Item) : List Bool := codeBits bls i.symbol ++ lsb i.need i.value

theorem foldl_replicate_sendItem (blTree : Tree) (l count : Nat) (s : Out) :
    (List.replicate count ⟨l, 0, 0⟩).foldl (sendItem blTree) s =
      Nat.iterate (sendCode l blTree) count s := by
  induction count generalizing s with
  | zero => rfl
  | succ count ih =>
      rw [List.replicate_succ, List.foldl_cons, ih]
      rfl

theorem atRun_sendRun (blTree : Tree) (s : Out) (r : Run) :
    atRun (sendRun blTree) s r = r.items.foldl (sendItem blTree) s := by
  rw [atRun, sendRun, Run.items]
  split
  · exact (foldl_replicate_sendItem blTree r.curlen r.count s).symm
  · split
    · split <;> rfl
    · split <;> rfl

theorem sendTree_eq (blTree : Tree) (lens : List Nat) (s : Out) :
    sendTree blTree lens s = (items lens).foldl (sendItem blTree) s := by
  rw [sendTree, treeRuns_eq_foldl, items, List.foldl_flatMap]
  exact congrArg (fun f => (runs lens).foldl f s) (funext fun s => funext (atRun_sendRun blTree s))

theorem Item.Adds.need_le {i : Item} {acc acc' : List Nat} (h : i.Adds acc acc') :
    i.need ≤ 16 ∧ i.value < 2 ^ i.need := by
  cases h with
  | one hl => exact ⟨Nat.zero_le 16, Nat.zero_lt_one⟩
  | again hlast hk => exact ⟨show 2 ≤ 16 by decide, hk⟩
  | zeros hk => exact ⟨show 3 ≤ 16 by decide, hk⟩
  | moreZeros hk => exact ⟨show 7 ≤ 16 by decide, hk⟩

theorem Adds.need_le {acc acc' : List Nat} {xs : List Item} (h : Adds acc xs acc') :
    ∀ i ∈ xs, i.need ≤ 16 ∧ i.value < 2 ^ i.need := by
  induction h with
  | nil acc =>
      intro i hi
      cases hi
  | cons h h' ih => exact List.forall_mem_cons.mpr ⟨h.need_le, ih⟩

section Sent

variable {blTree : Tree} {bls : List Nat}

theorem foldl_sendItem_sent (hbl : Coded blTree bls) {xs : List Item}
    (hneed : ∀ i ∈ xs, i.need ≤ 16 ∧ i.value < 2 ^ i.need)
    (hhas : ∀ i ∈ xs, len bls i.symbol ≠ 0) {s : Out} (hs : s.Valid) :
    Sent s (xs.flatMap (Item.bits bls)) (xs.foldl (sendItem blTree) s) := by
  induction xs generalizing s with
  | nil => exact Sent.refl hs
  | cons i xs ih =>
      obtain ⟨hle, hlt⟩ := hneed i List.mem_cons_self
      have hcode := hbl.sendCode_sent (hhas i List.mem_cons_self) hs
      have hextra := sendExtra_sent hcode.valid hle hlt
      rw [List.flatMap_cons, List.foldl_cons]
      exact (hcode.trans hextra).trans (ih (fun x hx => hneed x (List.mem_cons_of_mem i hx))
        (fun x hx => hhas x (List.mem_cons_of_mem i hx)) hextra.valid)

theorem sendTree_sent (hbl : Coded blTree bls) {lens : List Nat} (hlens : ∀ l ∈ lens, l < 16)
    (hhas : ∀ i ∈ items lens, len bls i.symbol ≠ 0) {s : Out} (hs : s.Valid) :
    Sent s ((items lens).flatMap (Item.bits bls)) (sendTree blTree lens s) := by
  rw [sendTree_eq]
  exact foldl_sendItem_sent hbl (items_adds hlens []).need_le hhas hs

def orderBits (bls order : List Nat) : List Bool := order.flatMap fun n => lsb 3 (len bls n)

theorem sendOrder_sent {dl : List Nat} {order : List Nat}
    (horder : ∀ n ∈ order, entry dl n = len bls n) (hlt : ∀ n, len bls n < 2 ^ 3) {s : Out}
    (hs : s.Valid) :
    Sent s (orderBits bls order) (order.foldl (fun s n => sendBits (entry dl n) 3 s) s) := by
  induction order generalizing s with
  | nil => exact Sent.refl hs
  | cons n order ih =>
      have hone := sendBits_sent hs (show 3 ≤ 16 by decide) (hlt n)
      rw [← horder n List.mem_cons_self] at hone
      rw [orderBits, List.flatMap_cons, List.foldl_cons, ← horder n List.mem_cons_self]
      exact hone.trans (ih (fun x hx => horder x (List.mem_cons_of_mem n hx)) hone.valid)

end Sent

/-! ## The trees of a block -/

/-- The lengths that go with a block: complete codes within the bounds of the format, and
a complete code for their lengths, of which `blcodes` are sent. -/
structure Header (ll dl bls : List Nat) (blcodes : Nat) : Prop where
  ll_length : 257 ≤ ll.length ∧ ll.length ≤ 286
  dl_length : 1 ≤ dl.length ∧ dl.length ≤ 30
  bls_length : bls.length = 19
  blcodes_le : 4 ≤ blcodes ∧ blcodes ≤ 19
  ll_complete : IsComplete ll Puff.maxbits
  dl_complete : IsComplete dl Puff.maxbits
  bls_complete : IsComplete bls Puff.maxbits
  bls_lt : ∀ n, len bls n < 2 ^ 3
  left_out : ∀ n ∈ blOrder.drop blcodes, len bls n = 0
  has : ∀ i ∈ items ll ++ items dl, len bls i.symbol ≠ 0
  has_end : len ll 256 ≠ 0

theorem lt_of_isCode {lens : List Nat} (h : IsCode lens Puff.maxbits) : ∀ l ∈ lens, l < 16 := by
  intro l hl
  obtain ⟨n, hn, rfl⟩ := List.getElem_of_mem hl
  have hle := h.le n
  rw [Canonical.len_of_lt lens hn, Puff.maxbits] at hle
  omega

def treesBits (ll dl bls : List Nat) (blcodes : Nat) : List Bool :=
  lsb 5 (ll.length - 257) ++ (lsb 5 (dl.length - 1) ++ (lsb 4 (blcodes - 4) ++
    (orderBits bls (blOrder.take blcodes) ++ (items ll ++ items dl).flatMap (Item.bits bls))))

theorem blOrder_lt : ∀ n ∈ blOrder, n < 19 := by decide

theorem sendAllTrees_sent {ltree dtree blTree : Tree} {ll dl bls : List Nat} {blcodes : Nat}
    (h : Header ll dl bls blcodes) (hll : ll = ltree.dl.take ll.length)
    (hdl : dl = dtree.dl.take dl.length) (hbl : Coded blTree bls) {s : Out} (hs : s.Valid) :
    Sent s (treesBits ll dl bls blcodes)
      (sendAllTrees ltree dtree blTree ll.length dl.length blcodes s) := by
  have hl := h.ll_length
  have hd := h.dl_length
  have hb := h.blcodes_le
  have h1 := sendBits_sent hs (show 5 ≤ 16 by decide) (show ll.length - 257 < 2 ^ 5 by omega)
  have h2 := sendBits_sent h1.valid (show 5 ≤ 16 by decide) (show dl.length - 1 < 2 ^ 5 by omega)
  have h3 := sendBits_sent h2.valid (show 4 ≤ 16 by decide) (show blcodes - 4 < 2 ^ 4 by omega)
  have h4 := @sendOrder_sent bls blTree.dl (blOrder.take blcodes)
    (fun n hn => hbl.dl n (h.bls_length ▸ blOrder_lt n (List.mem_of_mem_take hn))) h.bls_lt _
    h3.valid
  have h5 := sendTree_sent hbl (lt_of_isCode h.ll_complete.isCode)
    (fun i hi => h.has i (List.mem_append_left _ hi)) h4.valid
  have h6 := sendTree_sent hbl (lt_of_isCode h.dl_complete.isCode)
    (fun i hi => h.has i (List.mem_append_right _ hi)) h5.valid
  rw [treesBits, List.flatMap_append, sendAllTrees, ← hll, ← hdl]
  exact h1.trans (h2.trans (h3.trans (h4.trans (h5.trans h6))))

/-! ## What is read -/

section Reads

variable {n : Nat} {s : State} (hs : Ready n s)

include hs

/-- The lengths of the code for lengths are put where they belong. -/
theorem Ready.readOrder {bls : List Nat} (hlt : ∀ n, len bls n < 2 ^ 3) (m : Nat)
    (order lengths : List Nat) {more : List Bool}
    (hrest : s.rest = orderBits bls (order.take m) ++ more) :
    ∃ s', Puff.readOrder m order lengths s =
        .ok ((order.take m).foldl (fun lengths n => lengths.set n (len bls n)) lengths) s' ∧
      Reads n s (orderBits bls (order.take m)) s.out s' := by
  induction m generalizing order lengths s with
  | zero =>
      refine ⟨s, ?_, hs, rfl, rfl, rfl⟩
      cases order <;> rfl
  | succ m ih =>
      cases order with
      | nil => exact ⟨s, rfl, hs, rfl, rfl, rfl⟩
      | cons i order =>
          rw [List.take_succ_cons, orderBits, List.flatMap_cons, List.append_assoc] at hrest
          obtain ⟨t, hbits, ht⟩ := hs.bits (hlt i) hrest
          obtain ⟨s', hmore, hs'⟩ := ih ht.ready order (lengths.set i (len bls i)) (ht.rest hrest)
          rw [ht.out] at hs'
          refine ⟨s', ?_, ht.trans hs'⟩
          rw [Puff.readOrder, Program.bind_ok hbits, hmore]
          rfl

/-- A length is put behind the lengths several times. -/
theorem Ready.repeated {total base need k l : Nat} {acc : List Nat} (hk : k < 2 ^ need)
    (htotal : (acc ++ List.replicate (base + k) l).length ≤ total) {more : List Bool}
    (hrest : s.rest = lsb need k ++ more) :
    ∃ s', Puff.repeated total acc l base need s = .ok (acc ++ List.replicate (base + k) l) s' ∧
      Reads n s (lsb need k) s.out s' := by
  obtain ⟨s', hbits, hs'⟩ := hs.bits hk hrest
  rw [List.length_append, List.length_replicate] at htotal
  refine ⟨s', ?_, hs'⟩
  rw [Puff.repeated, Program.bind_ok hbits, if_neg (by omega)]
  rfl

/-- A symbol adds to the lengths what it says. -/
theorem Ready.addLengths {i : Item} {acc acc' : List Nat} (h : i.Adds acc acc') {total : Nat}
    (htotal : acc'.length ≤ total) {more : List Bool}
    (hrest : s.rest = lsb i.need i.value ++ more) :
    ∃ s', Puff.addLengths total acc i.symbol s = .ok acc' s' ∧
      Reads n s (lsb i.need i.value) s.out s' := by
  cases h with
  | one hl =>
      refine ⟨s, ?_, hs, rfl, rfl, rfl⟩
      rw [Puff.addLengths, if_pos hl]
      rfl
  | @again _ l k hlast hk =>
      have hne : acc ≠ [] := by
        rintro rfl
        cases hlast
      have hgetLast : acc.getLastD 0 = l := by
        rw [List.getLastD_eq_getLast?, hlast]
        rfl
      rw [Puff.addLengths, if_neg (Nat.lt_irrefl 16), if_pos rfl, if_neg hne, hgetLast]
      exact hs.repeated hk htotal hrest
  | zeros hk => exact hs.repeated hk htotal hrest
  | moreZeros hk => exact hs.repeated hk htotal hrest

end Reads

/-- The lengths are read as the symbols say. -/
theorem readLengths_reads {bls : List Nat} (hcode : IsCode bls Puff.maxbits) {acc acc' : List Nat}
    {xs : List Item} (hadds : Adds acc xs acc') (hhas : ∀ i ∈ xs, len bls i.symbol ≠ 0) {k : Nat}
    (hk : acc'.length < acc.length + k) {n : Nat} {s : State} (hs : Ready n s) {more : List Bool}
    (hrest : s.rest = xs.flatMap (Item.bits bls) ++ more) :
    ∃ s', Puff.readLengths true (Puff.construct bls).1 acc'.length k acc s = .ok acc' s' ∧
      Reads n s (xs.flatMap (Item.bits bls)) s.out s' := by
  induction hadds generalizing k s with
  | nil acc =>
      obtain ⟨k, rfl⟩ : ∃ j, k = j + 1 := ⟨k - 1, by omega⟩
      refine ⟨s, ?_, hs, rfl, rfl, rfl⟩
      rw [Puff.readLengths, if_neg (Nat.lt_irrefl _)]
      rfl
  | @cons acc acc1 acc' i xs h h' ih =>
      have hlt := h.length_lt
      have hle := h'.length_le
      obtain ⟨k, rfl⟩ : ∃ j, k = j + 1 := ⟨k - 1, by omega⟩
      rw [List.flatMap_cons, Item.bits, List.append_assoc, List.append_assoc] at hrest
      obtain ⟨s1, hdecode, h1⟩ := hs.decode hcode (hhas i List.mem_cons_self) hrest
      obtain ⟨s2, hlengths, h2⟩ := h1.ready.addLengths h hle (h1.rest hrest)
      obtain ⟨s3, hmore, h3⟩ := @ih (fun x hx => hhas x (List.mem_cons_of_mem i hx)) k (by omega)
        s2 h2.ready (h2.rest (h1.rest hrest))
      rw [h2.out, h1.out] at h3
      refine ⟨s3, ?_, ?_⟩
      · rw [Puff.readLengths, if_pos (Nat.lt_of_lt_of_le hlt hle), Program.bind_ok hdecode,
          Program.bind_ok hlengths]
        exact hmore
      · rw [List.flatMap_cons, Item.bits]
        exact (h1.trans h2).trans h3

/-! ## The whole block -/

theorem len_foldl_set (bls is lengths : List Nat) (j : Nat) :
    len (is.foldl (fun lengths n => lengths.set n (len bls n)) lengths) j =
      if j ∈ is ∧ j < lengths.length then len bls j else len lengths j := by
  induction is generalizing lengths with
  | nil => simp
  | cons i is ih =>
      have hset := Puff.entry_set lengths i (len bls i) j
      rw [List.foldl_cons, ih, List.length_set]
      by_cases hmem : j ∈ is ∧ j < lengths.length
      · rw [if_pos hmem, if_pos ⟨List.mem_cons_of_mem i hmem.1, hmem.2⟩]
      · rw [if_neg hmem]
        refine hset.trans ?_
        by_cases hji : j = i ∧ i < lengths.length
        · rw [if_pos hji, if_pos ⟨hji.1 ▸ List.mem_cons_self, hji.1 ▸ hji.2⟩, hji.1]
        · rw [if_neg hji, if_neg]
          · rfl
          · rintro ⟨hj, hlt⟩
            rcases List.mem_cons.mp hj with rfl | hj
            · exact hji ⟨rfl, hlt⟩
            · exact hmem ⟨hj, hlt⟩

theorem eq_of_len {a b : List Nat} (hlength : a.length = b.length)
    (h : ∀ n, n < a.length → len a n = len b n) : a = b := by
  refine List.ext_getElem hlength ?_
  intro n hn hn'
  rw [← Canonical.len_of_lt a hn, ← Canonical.len_of_lt b hn', h n hn]

theorem mem_blOrder : ∀ n, n < 19 → n ∈ blOrder := by decide

/-- The lengths that were not sent are zero. -/
theorem Header.order_eq {ll dl bls : List Nat} {blcodes : Nat} (h : Header ll dl bls blcodes) :
    (blOrder.take blcodes).foldl (fun lengths n => lengths.set n (len bls n))
      (List.replicate 19 0) = bls := by
  have hlength : ∀ is lengths : List Nat,
      (is.foldl (fun lengths n => lengths.set n (len bls n)) lengths).length = lengths.length := by
    intro is
    induction is with
    | nil => exact fun _ => rfl
    | cons i is ih => exact fun lengths => (ih _).trans List.length_set
  refine eq_of_len ((hlength _ _).trans h.bls_length.symm) ?_
  intro n hn
  rw [hlength, List.length_replicate] at hn
  rw [len_foldl_set, List.length_replicate]
  split
  · rfl
  · next hmem =>
      have hdrop : n ∈ blOrder.drop blcodes := by
        have hall := mem_blOrder n hn
        rw [← List.take_append_drop blcodes blOrder] at hall
        exact (List.mem_append.mp hall).resolve_left fun hx => hmem ⟨hx, hn⟩
      rw [h.left_out n hdrop, len, List.getD_eq_getElem?_getD, List.getElem?_replicate, if_pos hn,
        Option.getD_some]

theorem usable_of_complete {lens : List Nat} (h : IsComplete lens Puff.maxbits) :
    Puff.usable lens = true :=
  decide_eq_true (Or.inl (Puff.construct_complete h))

/-- The lengths and then the data are read back. -/
theorem dynamic_reads {ll dl bls : List Nat} {blcodes : Nat} (h : Header ll dl bls blcodes)
    {n : Nat} {s : State} (hs : Ready n s) {out' : List Bytef} {tallied : List Tally}
    (htells : Tells s.out tallied out') (hhas : ∀ t ∈ tallied, t.Has ll dl)
    (hroom : out'.length ≤ n) {more : List Bool}
    (hrest : s.rest = (treesBits ll dl bls blcodes ++ dataBits ll dl tallied) ++ more) :
    ∃ s', Puff.dynamic true s = .ok () s' ∧
      Reads n s (treesBits ll dl bls blcodes ++ dataBits ll dl tallied) out' s' := by
  have hl := h.ll_length
  have hd := h.dl_length
  have hb := h.blcodes_le
  rw [treesBits] at hrest ⊢
  simp only [List.append_assoc] at hrest
  obtain ⟨s1, hnlen, h1⟩ := hs.bits (show ll.length - 257 < 2 ^ 5 by omega) hrest
  obtain ⟨s2, hndist, h2⟩ := h1.ready.bits (show dl.length - 1 < 2 ^ 5 by omega) (h1.rest hrest)
  have hrest2 := h2.rest (h1.rest hrest)
  obtain ⟨s3, hncode, h3⟩ := h2.ready.bits (show blcodes - 4 < 2 ^ 4 by omega) hrest2
  obtain ⟨s4, horder, h4⟩ := h3.ready.readOrder h.bls_lt blcodes blOrder (List.replicate 19 0)
    (h3.rest hrest2)
  rw [h.order_eq] at horder
  have hadds := (items_adds (lt_of_isCode h.ll_complete.isCode) []).trans
    (items_adds (lt_of_isCode h.dl_complete.isCode) ([] ++ ll))
  obtain ⟨s5, hlengths, h5⟩ := @readLengths_reads bls h.bls_complete.isCode _ _ _ hadds h.has
    (ll.length + dl.length + 1) (by simp) n s4 h4.ready _ (h4.rest (h3.rest hrest2))
  have hout5 : s5.out = s.out := by rw [h5.out, h4.out, h3.out, h2.out, h1.out]
  rw [List.nil_append, List.length_append] at hlengths
  obtain ⟨s6, hcodes, h6⟩ := codes_reads h.ll_complete.isCode h.dl_complete.isCode h.has_end
    (hout5 ▸ htells) hhas hroom h5.ready (h5.rest (h4.rest (h3.rest hrest2)))
  have htotal : ll.length - 257 + 257 + (dl.length - 1 + 1) = ll.length + dl.length := by omega
  have hnlen' : ll.length - 257 + 257 = ll.length := by omega
  have hend : entry (ll ++ dl) 256 ≠ 0 := by
    have hend := h.has_end
    rw [len, List.getD_eq_getElem?_getD] at hend
    rw [entry, List.getD_eq_getElem?_getD, List.getElem?_append_left (by omega)]
    exact hend
  refine ⟨s6, ?_, ?_⟩
  · rw [Puff.dynamic, Program.bind_ok hnlen, Program.bind_ok hndist, Program.bind_ok hncode,
      if_neg (by omega), show blcodes - 4 + 4 = blcodes by omega]
    refine (Program.bind_ok horder).trans ?_
    rw [if_neg (not_not.mpr (Puff.construct_complete h.bls_complete)), htotal,
      Program.bind_ok hlengths, hnlen', Puff.dynamicCodes, if_neg hend, List.take_left,
      List.drop_left, usable_of_complete h.ll_complete, usable_of_complete h.dl_complete]
    exact hcodes
  · have hall := h1.trans (h2.trans (h3.trans (h4.trans (h5.trans h6))))
    simp only [List.append_assoc] at hall ⊢
    exact hall

end Trees
