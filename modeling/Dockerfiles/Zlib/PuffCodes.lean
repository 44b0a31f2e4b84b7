import Dockerfiles.Huffman.Canonical
import Dockerfiles.Zlib.PuffBits

/-! # The codes of `puff`

`construct` makes the tables of a canonical code, and `decode` reads its words.
-/

namespace Puff

open Canonical (first index Fits IsCode IsComplete count len rank word
  place)
open Bits (lsb msb)

/-! ## Arrays -/

theorem entry_set (a : List Nat) (i v j : Nat) :
    entry (a.set i v) j = if j = i ∧ i < a.length then v else entry a j := by
  rw [entry, entry, List.getD_eq_getElem?_getD, List.getD_eq_getElem?_getD, List.getElem?_set]
  by_cases hij : i = j
  · by_cases hlt : i < a.length
    · simp [hij, hij ▸ hlt]
    · simp [hij, hij ▸ hlt]
  · simp [hij, Ne.symm hij]

theorem entry_modify (a : List Nat) (f : Nat → Nat) (i j : Nat) :
    entry (a.modify i f) j = if j = i ∧ i < a.length then f (entry a j) else entry a j := by
  rw [entry, entry, List.getD_eq_getElem?_getD, List.getD_eq_getElem?_getD, List.getElem?_modify]
  by_cases hij : i = j
  · by_cases hlt : i < a.length
    · simp [hij, hij ▸ hlt]
    · simp [hij, hij ▸ hlt]
  · simp [hij, Ne.symm hij]

/-! ## The counts -/

theorem entry_foldl_modify (lengths acc : List Nat) {l : Nat} (hl : l < acc.length) :
    entry (lengths.foldl (fun count l => count.modify l (· + 1)) acc) l =
      entry acc l + count lengths l := by
  induction lengths generalizing acc with
  | nil => rfl
  | cons x lengths ih =>
      rw [List.foldl_cons, ih _ (by rwa [List.length_modify]), entry_modify, Canonical.count_cons]
      dsimp only
      by_cases h : l = x
      · rw [if_pos ⟨h, h ▸ hl⟩, if_pos h]
        omega
      · rw [if_neg (fun hx => h hx.1), if_neg h]
        omega

theorem entry_countLengths (lengths : List Nat) {l : Nat} (hl : l ≤ maxbits) :
    entry (countLengths lengths) l = count lengths l := by
  have hzero : entry (List.replicate (maxbits + 1) 0) l = 0 := by
    rw [entry, List.getD_eq_getElem?_getD, List.getElem?_replicate]
    split <;> rfl
  rw [countLengths, entry_foldl_modify lengths _ (by rw [List.length_replicate]; omega), hzero,
    Nat.zero_add]

theorem offset_eq (lengths : List Nat) {l : Nat} (hl : l ≤ maxbits + 1) :
    offset (countLengths lengths) l = index (count lengths) l := by
  induction l with
  | zero => rfl
  | succ l ih =>
      cases l with
      | zero => rfl
      | succ l => rw [offset, index, ih (by omega), entry_countLengths lengths (by omega)]

/-- What is left of the room for words after each length. -/
theorem leftLoop_eq (lengths : List Nat) (k : Nat) {l : Nat} {left : Int} (hl : 1 ≤ l)
    (hk : l + k ≤ maxbits + 1)
    (hfits : ∀ j, l ≤ j → j < l + k → first (count lengths) j + count lengths j ≤ 2 ^ j)
    (hleft : 2 * left = (2 ^ l : Nat) - first (count lengths) l) :
    2 * leftLoop (countLengths lengths) k l left =
      (2 ^ (l + k) : Nat) - first (count lengths) (l + k) := by
  induction k generalizing l left with
  | zero => exact hleft
  | succ k ih =>
      have hroom := hfits l (Nat.le_refl l) (by omega)
      have hcount := @entry_countLengths lengths l (by omega)
      have hpow : 2 ^ (l + 1) = 2 * 2 ^ l := Nat.pow_succ'
      have hfirst := Canonical.first_succ (count lengths) hl
      rw [leftLoop, hcount, if_neg (by omega), show l + (k + 1) = l + 1 + k by omega]
      apply ih (by omega) (by omega)
      · intro j hj hlt
        exact hfits j (by omega) (by omega)
      · rw [hpow, hfirst]
        omega

/-- The tables of a code whose words have room. -/
theorem construct_eq {lengths : List Nat} (hfits : Fits (count lengths) maxbits)
    (hsome : count lengths 0 ≠ lengths.length) :
    (construct lengths).1 =
        { count := countLengths lengths
          symbol := sortSymbols lengths 0
            ((List.range (maxbits + 1)).map (offset (countLengths lengths)))
            (List.replicate lengths.length 0) } ∧
      2 * (construct lengths).2 =
        (2 ^ (maxbits + 1) : Nat) - first (count lengths) (maxbits + 1) := by
  have hzero := @entry_countLengths lengths 0 (by decide)
  have hleft := @leftLoop_eq lengths maxbits 1 1 (Nat.le_refl 1) (by decide)
    (fun j h1 h2 => hfits j h1 (by omega)) rfl
  have hlast := hfits maxbits (by decide) (Nat.le_refl maxbits)
  have hfirst := Canonical.first_succ (count lengths) (show 1 ≤ maxbits by decide)
  have hpow : 2 ^ (maxbits + 1) = 2 * 2 ^ maxbits := Nat.pow_succ'
  rw [Nat.add_comm 1 maxbits] at hleft
  rw [construct, hzero, if_neg hsome, if_neg (by omega)]
  exact ⟨rfl, hleft⟩

/-- A complete code is accepted. -/
theorem construct_complete {lengths : List Nat} (h : IsComplete lengths maxbits) :
    (construct lengths).2 = 0 := by
  by_cases hsome : count lengths 0 = lengths.length
  · rw [construct, entry_countLengths lengths (Nat.zero_le maxbits), if_pos hsome]
  · have heq := (construct_eq h.isCode.fits hsome).2
    rw [h.full, Int.sub_self] at heq
    omega

/-! ## The symbols -/

/-- Where the last loop of `construct` puts a symbol. -/
def target (offs lengths : List Nat) (n : Nat) : Nat :=
  entry offs (len lengths n) + rank lengths n

theorem target_cons {l : Nat} (lengths : List Nat) {offs : List Nat} (hl : l < offs.length)
    (n : Nat) :
    target (offs.modify l (· + 1)) lengths n = target offs (l :: lengths) (n + 1) := by
  have hlen : len (l :: lengths) (n + 1) = len lengths n := rfl
  rw [target, target, rank, rank, hlen, entry_modify, List.take_succ_cons, Canonical.count_cons]
  dsimp only
  by_cases h : len lengths n = l
  · rw [if_pos ⟨h, hl⟩, if_pos h]
    omega
  · rw [if_neg (fun hx => h hx.1), if_neg h]
    omega

theorem target_cons_zero {lengths : List Nat} (offs : List Nat) {n : Nat}
    (hn : len lengths n ≠ 0) : target offs lengths n = target offs (0 :: lengths) (n + 1) := by
  have hlen : len (0 :: lengths) (n + 1) = len lengths n := rfl
  rw [target, target, rank, rank, hlen, List.take_succ_cons, Canonical.count_cons]
  dsimp only
  rw [if_neg hn, Nat.add_zero]

/-- What is no symbol's place is left alone. -/
theorem sortSymbols_other {lengths : List Nat} {symbol p : Nat} {offs table : List Nat}
    (hlt : ∀ l ∈ lengths, l < offs.length)
    (hp : ∀ n, len lengths n ≠ 0 → target offs lengths n ≠ p) :
    entry (sortSymbols lengths symbol offs table) p = entry table p := by
  induction lengths generalizing symbol offs table with
  | nil => rfl
  | cons l lengths ih =>
      have hl : l < offs.length := hlt l List.mem_cons_self
      have hrest : ∀ l ∈ lengths, l < offs.length := fun x hx => hlt x (List.mem_cons_of_mem l hx)
      rw [sortSymbols]
      by_cases hzero : l = 0
      · rw [if_neg (not_not.mpr hzero)]
        subst hzero
        apply ih hrest
        intro n hn
        rw [target_cons_zero offs hn]
        exact hp (n + 1) hn
      · have hhead : entry offs l ≠ p := hp 0 hzero
        rw [if_pos hzero, ih, entry_set, if_neg (fun h => hhead h.1.symm)]
        · intro x hx
          rw [List.length_modify]
          exact hrest x hx
        · intro n hn
          rw [target_cons lengths hl]
          exact hp (n + 1) hn

/-- Each symbol is found in its place. -/
theorem sortSymbols_target {lengths : List Nat} {symbol n : Nat} {offs table : List Nat}
    (hlt : ∀ l ∈ lengths, l < offs.length) (hn : len lengths n ≠ 0)
    (hroom : target offs lengths n < table.length)
    (hne : ∀ m, n < m → len lengths m ≠ 0 → target offs lengths m ≠ target offs lengths n) :
    entry (sortSymbols lengths symbol offs table) (target offs lengths n) = symbol + n := by
  induction lengths generalizing symbol n offs table with
  | nil => exact absurd rfl hn
  | cons l lengths ih =>
      have hl : l < offs.length := hlt l List.mem_cons_self
      have hrest : ∀ l ∈ lengths, l < offs.length := fun x hx => hlt x (List.mem_cons_of_mem l hx)
      rw [sortSymbols]
      by_cases hzero : l = 0
      · subst hzero
        cases n with
        | zero => exact absurd rfl hn
        | succ n =>
            have hn' : len lengths n ≠ 0 := hn
            rw [if_neg (not_not.mpr rfl)]
            rw [← target_cons_zero offs hn'] at hroom hne ⊢
            rw [ih hrest hn' hroom]
            · omega
            · intro m hm hlen
              rw [target_cons_zero offs hlen]
              exact hne (m + 1) (by omega) hlen
      · have hmod : ∀ l' ∈ lengths, l' < (offs.modify l (· + 1)).length := by
          intro x hx
          rw [List.length_modify]
          exact hrest x hx
        rw [if_pos hzero]
        cases n with
        | zero =>
            have hroom' : entry offs l < table.length := hroom
            -- nothing that comes later goes to this place
            rw [sortSymbols_other hmod]
            · exact (entry_set table (entry offs l) symbol (entry offs l)).trans
                (if_pos ⟨rfl, hroom'⟩)
            · intro m hm
              rw [target_cons lengths hl]
              exact hne (m + 1) (by omega) hm
        | succ n =>
            have hn' : len lengths n ≠ 0 := hn
            rw [← target_cons lengths hl] at hroom hne ⊢
            rw [ih hmod hn']
            · omega
            · rw [List.length_set]
              exact hroom
            · intro m hm hlen
              rw [target_cons lengths hl]
              exact hne (m + 1) (by omega) hlen

theorem count_zero_ne_length {lengths : List Nat} {n : Nat} (hn : len lengths n ≠ 0) :
    count lengths 0 ≠ lengths.length := by
  intro h
  have hlt := Canonical.lt_length_of_len_ne_zero lengths hn
  have hzero := List.count_eq_length.mp h lengths[n] (List.getElem_mem hlt)
  rw [Canonical.len_of_lt lengths hlt] at hn
  exact hn hzero.symm

theorem target_offset {lengths : List Nat} (hlt : ∀ l ∈ lengths, l ≤ maxbits) {n : Nat}
    (hn : len lengths n ≠ 0) :
    target ((List.range (maxbits + 1)).map (offset (countLengths lengths))) lengths n =
      place lengths n := by
  have hle : len lengths n ≤ maxbits := by
    have hn' := Canonical.lt_length_of_len_ne_zero lengths hn
    rw [Canonical.len_of_lt lengths hn']
    exact hlt _ (List.getElem_mem hn')
  have hentry : entry ((List.range (maxbits + 1)).map (offset (countLengths lengths)))
      (len lengths n) = offset (countLengths lengths) (len lengths n) := by
    rw [entry, List.getD_eq_getElem?_getD, List.getElem?_map, List.getElem?_range (by omega)]
    rfl
  rw [target, place, hentry, offset_eq lengths (by omega)]

theorem entry_construct_symbol {lengths : List Nat} (hlt : ∀ l ∈ lengths, l ≤ maxbits)
    (hfits : Fits (count lengths) maxbits) {n : Nat} (hn : len lengths n ≠ 0) :
    entry (construct lengths).1.symbol (place lengths n) = n := by
  rw [(construct_eq hfits (count_zero_ne_length hn)).1, ← target_offset hlt hn]
  have hsort := @sortSymbols_target lengths 0 n
    ((List.range (maxbits + 1)).map (offset (countLengths lengths)))
    (List.replicate lengths.length 0)
  rw [hsort _ hn]
  · exact Nat.zero_add n
  · rw [target_offset hlt hn, List.length_replicate]
    exact Canonical.place_lt_length lengths hn
  · intro m hm hlen
    rw [target_offset hlt hn, target_offset hlt hlen]
    exact Canonical.place_ne lengths hn hlen hm
  · intro l hl
    rw [List.length_map, List.length_range]
    exact Nat.lt_succ_of_le (hlt l hl)

/-! ## Words are read -/

/-- One bit of a word is read. -/
theorem bits_msb {s : State} (hs : s.Valid) {i w : Nat} {more : List Bool}
    (hrest : s.rest = msb (i + 1) w ++ more) :
    ∃ s', bits 1 s = .ok (w / 2 ^ i % 2) s' ∧ Took s [decide (w / 2 ^ i % 2 = 1)] s' ∧
      s'.rest = msb i w ++ more := by
  have hbit : lsb 1 (w / 2 ^ i % 2) = [decide (w / 2 ^ i % 2 = 1)] := by
    rw [lsb, Nat.mod_mod]
    rfl
  have hrest' : s.rest = lsb 1 (w / 2 ^ i % 2) ++ (msb i w ++ more) := by rw [hbit, hrest]; rfl
  have hlt : w / 2 ^ i % 2 < 2 ^ 1 := Nat.mod_lt (w / 2 ^ i) Nat.two_pos
  obtain ⟨s', hbits, htook⟩ := bits_lsb hs hlt hrest'
  refine ⟨s', hbits, by rwa [hbit] at htook, ?_⟩
  have hstream := htook.stream
  rw [hrest'] at hstream
  exact (List.append_cancel_left hstream).symm

theorem or_bit (i w : Nat) : (w / 2 ^ (i + 1) * 2 ||| (w / 2 ^ i % 2)) = w / 2 ^ i := by
  have hlt : w / 2 ^ i % 2 < 2 ^ 1 := Nat.mod_lt _ Nat.two_pos
  have hdiv : w / 2 ^ (i + 1) = w / 2 ^ i / 2 := by
    rw [Nat.pow_succ, Nat.div_div_eq_div_mul]
  have hor := Nat.two_pow_add_eq_or_of_lt hlt (w / 2 ^ (i + 1))
  rw [Nat.mul_comm, ← Nat.pow_one 2, ← hor, Nat.pow_one, hdiv]
  omega

/-- The loop of `decode` on the last `i + 1` bits of a word, which has `j + i` of them. -/
theorem decodeLoop_word {h : Huffman} {c : Nat → Nat} {i j k w : Nat} {s : State}
    {more : List Bool} (hj : 1 ≤ j) (hk : i < k)
    (hcount : ∀ l, j ≤ l → l ≤ j + i → entry h.count l = c l)
    (hlow : first c (j + i) ≤ w) (hhigh : w < first c (j + i) + c (j + i)) (hs : s.Valid)
    (hrest : s.rest = msb (i + 1) w ++ more) :
    ∃ s', decodeLoop h k j (w / 2 ^ (i + 1) * 2) (first c j) (index c j) s =
        .ok (entry h.symbol (index c (j + i) + (w - first c (j + i)))) s' ∧
      Took s (msb (i + 1) w) s' := by
  induction i generalizing j k s with
  | zero =>
      obtain ⟨k, rfl⟩ : ∃ m, k = m + 1 := ⟨k - 1, by omega⟩
      obtain ⟨t, hbits, htook, -⟩ := bits_msb hs hrest
      refine ⟨t, ?_, htook⟩
      rw [decodeLoop]
      show EStateM.bind (bits 1) _ s = _
      rw [EStateM.bind, hbits]
      dsimp only
      rw [or_bit, Nat.pow_zero, Nat.div_one, hcount j (Nat.le_refl j) (Nat.le_refl j),
        if_pos (by rw [Nat.add_zero] at hhigh; omega)]
      rfl
  | succ i ih =>
      obtain ⟨k, rfl⟩ : ∃ m, k = m + 1 := ⟨k - 1, by omega⟩
      obtain ⟨t, hbits, htook, hrest'⟩ := bits_msb hs hrest
      have hshift := Canonical.shift_le_first c hj i
      have hle : first c j + c j ≤ w / 2 ^ (i + 1) := by
        rw [Nat.le_div_iff_mul_le (Nat.two_pow_pos _), Nat.mul_comm]
        omega
      have hsum : j + (i + 1) = j + 1 + i := by omega
      rw [hsum] at hcount hlow hhigh ⊢
      obtain ⟨s', hloop, hlast⟩ := @ih (j + 1) k t (by omega) (by omega)
        (fun l h1 h2 => hcount l (by omega) h2) hlow hhigh htook.valid hrest'
      refine ⟨s', ?_, htook.trans hlast⟩
      rw [decodeLoop]
      show EStateM.bind (bits 1) _ s = _
      rw [EStateM.bind, hbits]
      dsimp only
      rw [or_bit, hcount j (Nat.le_refl j) (by omega), if_neg (by omega), Nat.shiftLeft_eq,
        Nat.shiftLeft_eq, Nat.pow_one, Nat.mul_comm (first c j + c j) 2,
        ← Canonical.first_succ c hj, ← Canonical.index_succ c hj]
      exact hloop

/-- The word of a symbol is read as the symbol, and nothing else is read. -/
theorem decodeSlow_word {lengths : List Nat} (hcode : IsCode lengths maxbits) {n : Nat}
    (hn : len lengths n ≠ 0) {s : State} (hs : s.Valid) {more : List Bool}
    (hrest : s.rest = msb (len lengths n) (word lengths n) ++ more) :
    ∃ s', decodeSlow (construct lengths).1 s = .ok n s' ∧
      Took s (msb (len lengths n) (word lengths n)) s' := by
  have hn' := Canonical.lt_length_of_len_ne_zero lengths hn
  have hlt : ∀ l ∈ lengths, l ≤ maxbits := by
    intro l hl
    obtain ⟨m, hm, rfl⟩ := List.getElem_of_mem hl
    rw [← Canonical.len_of_lt lengths hm]
    exact hcode.le m
  have hword := hcode.word_lt hn
  have hrank := Canonical.rank_lt_count lengths hn'
  have hcount : ∀ l, l ≤ maxbits → entry (construct lengths).1.count l = count lengths l := by
    intro l hl
    rw [(construct_eq hcode.fits (count_zero_ne_length hn)).1]
    exact entry_countLengths lengths hl
  obtain ⟨i, hi⟩ : ∃ i, len lengths n = 1 + i := ⟨len lengths n - 1, by omega⟩
  have hmax := hcode.le n
  have hi' : i + 1 = len lengths n := by omega
  obtain ⟨s', hloop, htook⟩ := @decodeLoop_word (construct lengths).1 (count lengths) i 1 maxbits
    (word lengths n) s more (Nat.le_refl 1) (by omega) (fun l _ h2 => hcount l (by omega))
    (by rw [← hi, word]; omega) (by rw [← hi, word]; omega) hs (by rwa [hi'])
  refine ⟨s', ?_, by rwa [hi'] at htook⟩
  rw [hi', Nat.div_eq_of_lt hword, ← hi] at hloop
  refine hloop.trans ?_
  have hplace : index (count lengths) (len lengths n) +
      (word lengths n - first (count lengths) (len lengths n)) = place lengths n := by
    rw [word, place]
    omega
  rw [hplace, entry_construct_symbol hlt hcode.fits hn]

end Puff
