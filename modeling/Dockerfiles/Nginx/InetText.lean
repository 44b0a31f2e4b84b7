import Dockerfiles.Nginx.Inet
import Mathlib.Data.List.GetD

/-! # Addresses written and read back

Every IPv6 address is read back from the text written for it, except the two that
end in the dotted text `255.255.255.255`: the reader takes its number for
`INADDR_NONE`. The text is words, each with a colon after it, two colons for the
longest run of zeros, and words or a dotted end.
-/

namespace Nginx

/-! ## IPv4 -/

theorem inetAddrLoop_digits {ds : List Nat} (hds : ∀ d ∈ ds, d < 10) {octet : Nat}
    (hv : Numeral.value 10 octet ds ≤ 255) (addr : BitVec 32) (n : Nat) (rest : Bytes) :
    inetAddrLoop addr octet n (ds.map (digitChar .no) ++ rest) =
      inetAddrLoop addr (Numeral.value 10 octet ds) n rest := by
  induction ds generalizing octet with
  | nil => rfl
  | cons d ds ih =>
      have hd : d < 10 := hds d List.mem_cons_self
      have hle := Numeral.le_value (by decide : 0 < 10) (octet * 10 + d) ds
      have hsmall : ¬ octet * 10 + d > 255 := by
        rw [Numeral.value_cons] at hv
        omega
      rw [List.map_cons, List.cons_append, inetAddrLoop]
      simp only [digit_digitChar hd, if_neg hsmall]
      exact ih (fun e he => hds e (List.mem_cons_of_mem d he)) hv

theorem inetAddrLoop_decimal (v : UInt8) (addr : BitVec 32) (n : Nat) (rest : Bytes) :
    inetAddrLoop addr 0 n (decimal v.toNat ++ rest) = inetAddrLoop addr v.toNat n rest := by
  have hv := v.toNat_lt
  obtain ⟨ds, htext, hds, hvalue, -, -⟩ :=
    exists_digits_decimal (n := v.toNat) (k := 2) (by omega) (by decide)
  rw [htext, inetAddrLoop_digits hds (by omega), hvalue]

theorem inetAddrLoop_dot (addr : BitVec 32) (octet n : Nat) (rest : Bytes) :
    inetAddrLoop addr octet n (46 :: rest) =
      inetAddrLoop ((addr <<< 8) + BitVec.ofNat 32 octet) 0 (n + 1) rest := by
  rw [inetAddrLoop]
  rfl

def quad (p : Nat → UInt8) : BitVec 32 :=
  BitVec.ofNat 32
    ((p 0).toNat * 2 ^ 24 + (p 1).toNat * 2 ^ 16 + (p 2).toNat * 2 ^ 8 + (p 3).toNat)

theorem toNat_quad (p : Nat → UInt8) :
    (quad p).toNat =
      (p 0).toNat * 2 ^ 24 + (p 1).toNat * 2 ^ 16 + (p 2).toNat * 2 ^ 8 + (p 3).toNat := by
  have h0 := (p 0).toNat_lt
  have h1 := (p 1).toNat_lt
  have h2 := (p 2).toNat_lt
  have h3 := (p 3).toNat_lt
  rw [quad, BitVec.toNat_ofNat]
  omega

theorem sprintf_dotted (p : Nat → UInt8) :
    sprintf (dotted p) =
      decimal (p 0).toNat ++ 46 :: (decimal (p 1).toNat ++ 46 :: (decimal (p 2).toNat ++
        46 :: decimal (p 3).toNat)) := by
  simp [sprintf, dotted, Item.text, decimal]

theorem inetAddr_dotted (p : Nat → UInt8) : inetAddr (sprintf (dotted p)) = quad p := by
  have h0 := (p 0).toNat_lt
  have h1 := (p 1).toNat_lt
  have h2 := (p 2).toNat_lt
  have h3 := (p 3).toNat_lt
  rw [sprintf_dotted, inetAddr, inetAddrLoop_decimal, inetAddrLoop_dot, inetAddrLoop_decimal,
    inetAddrLoop_dot, inetAddrLoop_decimal, inetAddrLoop_dot,
    ← List.append_nil (decimal (p 3).toNat), inetAddrLoop_decimal]
  apply BitVec.eq_of_toNat_eq
  rw [toNat_quad, inetAddrLoop, if_pos rfl]
  simp only [BitVec.toNat_add, BitVec.toNat_shiftLeft, BitVec.toNat_ofNat, Nat.shiftLeft_eq]
  omega

theorem quad_octet (addr : BitVec 32) : quad (octet addr) = addr := by
  have hlt := addr.isLt
  apply BitVec.eq_of_toNat_eq
  rw [toNat_quad]
  simp only [octet, UInt8.toNat_ofNat']
  omega

/-- The bytes `ngx_inet6_addr` stores of the number of an IPv4 address. -/
theorem quad_bytes (q : Nat → UInt8) :
    [UInt8.ofNat ((quad q).toNat / 2 ^ 24), UInt8.ofNat ((quad q).toNat / 2 ^ 16)] ++
        wordBytes (quad q).toNat =
      [q 0, q 1, q 2, q 3] := by
  have hnum := toNat_quad q
  have h0 := (q 0).toNat_lt
  have h1 := (q 1).toNat_lt
  have h2 := (q 2).toNat_lt
  have h3 := (q 3).toNat_lt
  simp only [wordBytes, List.cons_append, List.nil_append, List.cons.injEq, and_true]
  refine ⟨?_, ?_, ?_, ?_⟩
  all_goals
    apply UInt8.toNat_inj.mp
    rw [UInt8.toNat_ofNat', hnum]
    omega

/-! ## IPv6: groups read -/

theorem digitChar_lower_ne {d : Nat} (hd : d < 16) :
    digitChar .lower d ≠ 58 ∧ digitChar .lower d ≠ 46 := by
  have hall : ∀ d : Fin 16, digitChar .lower d ≠ 58 ∧ digitChar .lower d ≠ 46 := by decide
  exact hall ⟨d, hd⟩

theorem inet6Loop_digits {ds : List Nat} (hds : ∀ d ∈ ds, d < 16) (s : Inet6State)
    (hn : s.nibbles + ds.length ≤ 4) (rest : Bytes) :
    inet6Loop s (ds.map (digitChar .lower) ++ rest) =
      inet6Loop
        { s with nibbles := s.nibbles + ds.length, word := Numeral.value 16 s.word ds } rest := by
  induction ds generalizing s with
  | nil => rfl
  | cons d ds ih =>
      have hd : d < 16 := hds d List.mem_cons_self
      have hne := digitChar_lower_ne hd
      have hroom : ¬ s.nibbles + 1 > 4 := by
        simp only [List.length_cons] at hn
        omega
      rw [List.map_cons, List.cons_append, inet6Loop]
      simp only [hne, false_and, if_false, if_neg hroom, hexDigit_digitChar hd]
      rw [ih (fun e he => hds e (List.mem_cons_of_mem d he))]
      · simp only [List.length_cons, Numeral.value_cons]
        congr 2
        omega
      · simp only [List.length_cons] at hn
        show s.nibbles + 1 + ds.length ≤ 4
        omega

/-- The state in which a group starts. -/
def atGroup (addr : Bytes) (zero : Option Nat) (digit : Option Bytes) (n : Nat) : Inet6State :=
  { addr, zero, digit, nibbles := 0, word := 0, n }

section Groups

variable {addr : Bytes} {zero : Option Nat} {digit : Option Bytes} {n w : Nat}

theorem inet6Loop_group (hw : w < 2 ^ 16) :
    ∃ nibbles, nibbles ≠ 0 ∧ ∀ rest : Bytes,
      inet6Loop (atGroup addr zero digit n) (hexadecimal w ++ rest) =
        inet6Loop { addr, zero, digit, nibbles, word := w, n } rest := by
  obtain ⟨ds, htext, hds, hvalue, hpos, hle⟩ := exists_digits_hexadecimal hw
  refine ⟨ds.length, by omega, ?_⟩
  intro rest
  rw [htext, inet6Loop_digits hds _ (by simpa [atGroup] using hle)]
  simp [atGroup, hvalue]

theorem inet6Loop_group_colon (hw : w < 2 ^ 16) (hn : 2 ≤ n) (rest : Bytes) :
    inet6Loop (atGroup addr zero digit n) (hexadecimal w ++ 58 :: rest) =
      inet6Loop (atGroup (addr ++ wordBytes w) zero (some rest) (n - 1)) rest := by
  obtain ⟨nibbles, hne, hgroup⟩ :=
    @inet6Loop_group addr zero digit n w hw
  have hleft : n - 1 ≠ 0 := by omega
  rw [hgroup, inet6Loop]
  simp [hne, hleft, atGroup]

theorem inet6Loop_double_colon (rest : Bytes) :
    inet6Loop (atGroup addr none digit n) (58 :: rest) =
      inet6Loop (atGroup addr (some addr.length) (some rest) n) rest := by
  rw [inet6Loop]
  simp [atGroup]

def groups (ws : List Nat) : Bytes := ws.flatMap fun w => hexadecimal w ++ [58]

theorem inet6Loop_groups {ws : List Nat} (hws : ∀ w ∈ ws, w < 2 ^ 16) (hn : ws.length < n)
    (rest : Bytes) :
    inet6Loop (atGroup addr zero digit n) (groups ws ++ rest) =
      inet6Loop
        (atGroup (addr ++ ws.flatMap wordBytes) zero (if ws = [] then digit else some rest)
          (n - ws.length)) rest := by
  induction ws generalizing addr digit n with
  | nil => simp [groups]
  | cons w ws ih =>
      have hw : w < 2 ^ 16 := hws w List.mem_cons_self
      have hcons : groups (w :: ws) ++ rest = hexadecimal w ++ 58 :: (groups ws ++ rest) := by
        simp [groups]
      simp only [List.length_cons] at hn
      rw [hcons, inet6Loop_group_colon hw (by omega),
        ih (fun v hv => hws v (List.mem_cons_of_mem w hv)) (by omega)]
      congr 2
      · simp
      · by_cases hnil : ws = [] <;> simp [hnil, groups]
      · simp only [List.length_cons]
        omega

def joined : List Nat → Bytes
  | [] => []
  | [w] => hexadecimal w
  | w :: ws => hexadecimal w ++ 58 :: joined ws

theorem inet6Rest_group_none (hw : w < 2 ^ 16) :
    inet6Rest (atGroup addr none digit 1) (hexadecimal w) = .ok (addr ++ wordBytes w) := by
  obtain ⟨nibbles, hne, hgroup⟩ :=
    @inet6Loop_group addr none digit 1 w hw
  rw [inet6Rest, ← List.append_nil (hexadecimal w), hgroup, inet6Loop]
  simp [inet6Finish, hne]

theorem inet6Rest_group_some (hw : w < 2 ^ 16) (hn : 2 ≤ n) (front back : Bytes) :
    inet6Rest (atGroup (front ++ back) (some front.length) digit n) (hexadecimal w) =
      .ok (front ++ List.replicate ((n - 1) * 2) 0 ++ back ++ wordBytes w) := by
  obtain ⟨nibbles, hne, hgroup⟩ :=
    @inet6Loop_group (front ++ back) (some front.length) digit n w hw
  have hleft : n - 1 ≠ 0 := by omega
  rw [inet6Rest, ← List.append_nil (hexadecimal w), hgroup, inet6Loop]
  simp [inet6Finish, hne, hleft]

theorem inet6Rest_joined_none {ws : List Nat} (hws : ∀ w ∈ ws, w < 2 ^ 16) (hn : ws.length = n)
    (hpos : 0 < n) :
    inet6Rest (atGroup addr none digit n) (joined ws) = .ok (addr ++ ws.flatMap wordBytes) := by
  induction ws generalizing addr digit n with
  | nil =>
      simp only [List.length_nil] at hn
      omega
  | cons w ws ih =>
      have hw : w < 2 ^ 16 := hws w List.mem_cons_self
      have hrest : ∀ v ∈ ws, v < 2 ^ 16 := fun v hv => hws v (List.mem_cons_of_mem w hv)
      cases ws with
      | nil =>
          subst hn
          simpa [joined] using inet6Rest_group_none hw
      | cons v ws =>
          simp only [List.length_cons] at hn ih
          have hstep := @inet6Loop_group_colon addr none digit n w hw (by omega) (joined (v :: ws))
          rw [inet6Rest, joined, hstep, ← inet6Rest, ih hrest (by omega) (by omega)]
          · simp
          · simp

theorem inet6Rest_joined_some {ws : List Nat} (hws : ∀ w ∈ ws, w < 2 ^ 16) (hne : ws ≠ [])
    (hn : ws.length < n) (front back : Bytes) :
    inet6Rest (atGroup (front ++ back) (some front.length) digit n) (joined ws) =
      .ok (front ++ List.replicate ((n - ws.length) * 2) 0 ++ back ++ ws.flatMap wordBytes) := by
  induction ws generalizing back digit n with
  | nil => exact absurd rfl hne
  | cons w ws ih =>
      have hw : w < 2 ^ 16 := hws w List.mem_cons_self
      have hrest : ∀ v ∈ ws, v < 2 ^ 16 := fun v hv => hws v (List.mem_cons_of_mem w hv)
      simp only [List.length_cons] at hn
      cases ws with
      | nil => simpa [joined] using inet6Rest_group_some hw (by omega) front back
      | cons v ws =>
          have hstep := @inet6Loop_group_colon (front ++ back) (some front.length) digit n w hw
            (by omega) (joined (v :: ws))
          rw [inet6Rest, joined, hstep, ← inet6Rest, List.append_assoc front back,
            ih hrest (by simp) (by omega)]
          · have hcount : n - 1 - (v :: ws).length = n - (w :: v :: ws).length := by
              simp only [List.length_cons]
              omega
            rw [hcount]
            simp
          · simp

/-- Zeros at the end are written as nothing: the last word is stored all the same. -/
theorem inet6Rest_nil (hn : 2 ≤ n) :
    inet6Rest (atGroup addr (some addr.length) digit n) [] =
      .ok (addr ++ List.replicate (n * 2) 0) := by
  have hleft : n - 1 ≠ 0 := by omega
  have hcount : List.replicate (n * 2) (0 : UInt8) = List.replicate ((n - 1) * 2) 0 ++ [0, 0] := by
    rw [show n * 2 = (n - 1) * 2 + 2 by omega, ← List.replicate_append_replicate]
    rfl
  rw [inet6Rest, inet6Loop]
  simp [inet6Finish, atGroup, hleft, hcount, wordBytes]

theorem inet6Loop_decimal (v : UInt8) :
    ∃ nibbles word, nibbles ≠ 0 ∧ ∀ rest : Bytes,
      inet6Loop (atGroup addr zero digit n) (decimal v.toNat ++ rest) =
        inet6Loop { addr, zero, digit, nibbles, word, n } rest := by
  have hv := v.toNat_lt
  obtain ⟨ds, htext, hds, -, hpos, hle⟩ :=
    exists_digits_decimal (n := v.toNat) (k := 2) (by omega) (by decide)
  have hsame : ds.map (digitChar .no) = ds.map (digitChar .lower) := by
    apply List.map_congr_left
    intro d hd
    exact (if_pos (hds d hd)).symm
  refine ⟨ds.length, Numeral.value 16 0 ds, by omega, ?_⟩
  intro rest
  rw [htext, hsame, inet6Loop_digits (fun d hd => by have := hds d hd; omega) _
    (show 0 + ds.length ≤ 4 by omega)]
  simp [atGroup]

/-- The dotted text is first read as a group, and then once more from where the
group began. -/
theorem inet6Rest_dotted (q : Nat → UInt8) (hq : quad q ≠ inaddrNone) (hn : 3 ≤ n)
    (front back : Bytes) :
    inet6Rest (atGroup (front ++ back) (some front.length) (some (sprintf (dotted q))) n)
        (sprintf (dotted q)) =
      .ok (front ++ List.replicate ((n - 2) * 2) 0 ++ back ++ [q 0, q 1, q 2, q 3]) := by
  obtain ⟨nibbles, word, hne, hgroup⟩ :=
    @inet6Loop_decimal (front ++ back) (some front.length) (some (sprintf (dotted q))) n (q 0)
  have hdot : ∀ rest, inet6Loop
      { addr := front ++ back, zero := some front.length, digit := some (sprintf (dotted q)),
        nibbles, word, n } (46 :: rest) =
      .ok
        { addr := front ++ back ++ [UInt8.ofNat ((quad q).toNat / 2 ^ 24),
            UInt8.ofNat ((quad q).toNat / 2 ^ 16)],
          zero := some front.length, digit := some (sprintf (dotted q)), nibbles,
          word := (quad q).toNat, n := n - 1 } := by
    intro rest
    have hlarge : ¬ n < 2 := by omega
    rw [inet6Loop, if_neg (by decide), if_pos ⟨rfl, hne⟩]
    simp only [inetAddr_dotted, if_neg hlarge, if_neg hq]
  have hleft : n - 2 ≠ 0 := by omega
  have hcount : n - 1 - 1 = n - 2 := by omega
  rw [inet6Rest]
  nth_rewrite 2 [sprintf_dotted]
  rw [hgroup, hdot]
  simp only [inet6Finish, hne, false_and, if_false, hcount]
  rw [← quad_bytes q]
  simp [hleft]

end Groups

/-! ## IPv6: runs of zeros -/

/-- What the first loop of `ngx_inet6_ntop` knows when it comes to byte `i`. -/
structure ZeroRun.Valid (p : Bytes) (i : Nat) (s : ZeroRun) : Prop where
  kept : ∀ z, s.zero = some z →
    2 ∣ z ∧ 2 ≤ s.max ∧ z + 2 * s.max ≤ i ∧
      ∀ j, z ≤ j → j < z + 2 * s.max → p.getD j 0 = 0
  pos : 1 ≤ s.max
  current : 2 * s.n ≤ i ∧ ∀ j, i - 2 * s.n ≤ j → j < i → p.getD j 0 = 0
  last_eq : s.n ≠ 0 → s.last = some (i - 2 * s.n)

theorem ZeroRun.Valid.keep {p : Bytes} {i : Nat} {s : ZeroRun} (h : s.Valid p i)
    (hi : 2 ∣ i) : s.keep.Valid p i := by
  rw [ZeroRun.keep]
  split
  · next hlt =>
      have hpos := h.pos
      have hlast := h.last_eq (by omega)
      obtain ⟨hle, hzero⟩ := h.current
      refine ⟨?_, ?_, h.current, h.last_eq⟩
      · intro z hz
        have hz : i - 2 * s.n = z := by
          rw [hlast] at hz
          exact Option.some.inj hz
        refine ⟨by omega, ?_, ?_, ?_⟩
        · show 2 ≤ s.n
          omega
        · show z + 2 * s.n ≤ i
          omega
        · intro j hj hj'
          exact hzero j (by omega) (by change j < z + 2 * s.n at hj'; omega)
      · show 1 ≤ s.n
        omega
  · exact h

theorem ZeroRun.Valid.step {p : Bytes} {i : Nat} {s : ZeroRun} (h : s.Valid p i)
    (hi : 2 ∣ i) : (s.step p i).Valid p (i + 2) := by
  rw [ZeroRun.step]
  split
  · have hk := h.keep hi
    refine ⟨?_, hk.pos, ⟨by simp, ?_⟩, by simp⟩
    · intro z hz
      obtain ⟨hdvd, hmax, hle, hzero⟩ := hk.kept z hz
      exact ⟨hdvd, hmax, Nat.le_add_right_of_le hle, hzero⟩
    · intro j hj hj'
      simp only [Nat.mul_zero] at hj
      omega
  · next hbytes =>
      obtain ⟨hfirst, hsecond⟩ := not_or.mp hbytes
      obtain ⟨hle, hzero⟩ := h.current
      refine ⟨?_, h.pos, ⟨?_, ?_⟩, ?_⟩
      · intro z hz
        obtain ⟨hdvd, hmax, hle, hzero⟩ := h.kept z hz
        exact ⟨hdvd, hmax, Nat.le_add_right_of_le hle, hzero⟩
      · show 2 * (s.n + 1) ≤ i + 2
        omega
      · intro j hj hj'
        change i + 2 - 2 * (s.n + 1) ≤ j at hj
        rcases Nat.lt_or_ge j i with hlt | hge
        · exact hzero j (by omega) hlt
        · rcases (show j = i ∨ j = i + 1 by omega) with rfl | rfl
          · exact not_not.mp hfirst
          · exact not_not.mp hsecond
      · intro _
        show (if s.n = 0 then some i else s.last) = some (i + 2 - 2 * (s.n + 1))
        split
        · next h0 => simp [h0]
        · next h0 =>
            rw [h.last_eq h0]
            congr 1
            omega

theorem valid_zeroRun (p : Bytes) : (zeroRun p).Valid p 16 := by
  have h0 : ({ zero := none, last := none, max := 1, n := 0 } : ZeroRun).Valid p 0 :=
    ⟨by simp, Nat.le_refl 1, by simp, by simp⟩
  have h2 := h0.step (by decide)
  have h4 := h2.step (by decide)
  have h6 := h4.step (by decide)
  have h8 := h6.step (by decide)
  have h10 := h8.step (by decide)
  have h12 := h10.step (by decide)
  have h14 := h12.step (by decide)
  have h16 := h14.step (by decide)
  exact h16.keep (by decide)

/-! ## IPv6: the text written -/

def wordsFrom (p : Bytes) : Nat → Nat → List Nat
  | _, 0 => []
  | i, k + 1 => wordAt p i :: wordsFrom p (i + 2) k

@[simp] theorem length_wordsFrom (p : Bytes) (i k : Nat) : (wordsFrom p i k).length = k := by
  induction k generalizing i with
  | zero => rfl
  | succ k ih => simp [wordsFrom, ih]

theorem wordAt_lt (p : Bytes) (i : Nat) : wordAt p i < 2 ^ 16 := by
  have h0 := (p.getD i 0).toNat_lt
  have h1 := (p.getD (i + 1) 0).toNat_lt
  rw [wordAt]
  omega

theorem wordsFrom_lt (p : Bytes) (i k : Nat) : ∀ w ∈ wordsFrom p i k, w < 2 ^ 16 := by
  induction k generalizing i with
  | zero => simp [wordsFrom]
  | succ k ih =>
      intro w hw
      rcases List.mem_cons.mp hw with rfl | hw
      · exact wordAt_lt p i
      · exact ih (i + 2) w hw

theorem wordBytes_wordAt (p : Bytes) (i : Nat) :
    wordBytes (wordAt p i) = [p.getD i 0, p.getD (i + 1) 0] := by
  have h0 := (p.getD i 0).toNat_lt
  have h1 := (p.getD (i + 1) 0).toNat_lt
  have hfirst : UInt8.ofNat (wordAt p i / 256) = p.getD i 0 := by
    apply UInt8.toNat_inj.mp
    rw [UInt8.toNat_ofNat', wordAt]
    omega
  have hsecond : UInt8.ofNat (wordAt p i) = p.getD (i + 1) 0 := by
    apply UInt8.toNat_inj.mp
    rw [UInt8.toNat_ofNat', wordAt]
    omega
  rw [wordBytes, hfirst, hsecond]

theorem flatMap_wordsFrom {p : Bytes} {i k : Nat} (h : i + 2 * k ≤ p.length) :
    (wordsFrom p i k).flatMap wordBytes = (p.drop i).take (2 * k) := by
  induction k generalizing i with
  | zero => simp [wordsFrom]
  | succ k ih =>
      have hi : i < p.length := by omega
      have hi' : i + 1 < p.length := by omega
      have hdrop : p.drop i = p.getD i 0 :: p.getD (i + 1) 0 :: p.drop (i + 2) := by
        rw [List.drop_eq_getElem_cons hi, List.drop_eq_getElem_cons hi',
          List.getD_eq_getElem _ _ hi, List.getD_eq_getElem _ _ hi']
      rw [wordsFrom, List.flatMap_cons, ih (by omega), wordBytes_wordAt, hdrop]
      rfl

theorem take_drop_eq_replicate {p : Bytes} {i m : Nat} (hlen : i + m ≤ p.length)
    (hzero : ∀ j, i ≤ j → j < i + m → p.getD j 0 = 0) :
    (p.drop i).take m = List.replicate m 0 := by
  apply List.eq_replicate_iff.mpr
  constructor
  · simp only [List.length_take, List.length_drop]
    omega
  · intro b hb
    obtain ⟨j, hj, rfl⟩ := List.mem_iff_getElem.mp hb
    simp only [List.length_take, List.length_drop] at hj
    have := hzero (i + j) (by omega) (by omega)
    rw [List.getD_eq_getElem _ _ (by omega)] at this
    simpa using this

section Loop

variable {p : Bytes} {run : ZeroRun}

theorem ntopLoop_end {n rounds i : Nat} (h : n ≤ i) : ntopLoop p run n rounds i = [] := by
  cases rounds with
  | zero => rfl
  | succ rounds => rw [ntopLoop, if_neg (by omega)]

theorem ntopLoop_joined {k rounds i : Nat} (hk : i + 2 * k = 16) (hrounds : k ≤ rounds)
    (hzero : ∀ j, i ≤ j → run.zero ≠ some j) :
    ntopLoop p run 16 rounds i = joined (wordsFrom p i k) := by
  induction k generalizing rounds i with
  | zero => exact ntopLoop_end (by omega)
  | succ k ih =>
      obtain ⟨rounds, rfl⟩ := Nat.exists_eq_succ_of_ne_zero (show rounds ≠ 0 by omega)
      have hnext := @ih rounds (i + 2) (by omega) (by omega)
        (fun j hj => hzero j (by omega))
      rw [ntopLoop, if_pos (by omega), if_neg (hzero i (Nat.le_refl i)), hnext]
      cases k with
      | zero =>
          rw [if_neg (by omega)]
          simp [wordsFrom, joined]
      | succ k =>
          rw [if_pos (by omega)]
          simp [wordsFrom, joined]

theorem ntopLoop_groups {n k rounds i : Nat} (hn : i + 2 * k ≤ n) (hk : i + 2 * k ≤ 14)
    (hzero : ∀ j, i ≤ j → j < i + 2 * k → run.zero ≠ some j) :
    ntopLoop p run n (k + rounds) i =
      groups (wordsFrom p i k) ++ ntopLoop p run n rounds (i + 2 * k) := by
  induction k generalizing i with
  | zero => simp [wordsFrom, groups]
  | succ k ih =>
      have hnext := ih (i := i + 2) (by omega) (by omega)
        (fun j hj hj' => hzero j (by omega) (by omega))
      have hi : i + 2 * (k + 1) = i + 2 + 2 * k := by omega
      rw [show k + 1 + rounds = k + rounds + 1 by omega, ntopLoop, if_pos (by omega),
        if_neg (hzero i (by omega) (by omega)), if_pos (by omega), hnext, hi]
      simp [wordsFrom, groups]

end Loop

/-! ## IPv6: round trip -/

theorem inet6Addr_hexadecimal {w : Nat} (hw : w < 2 ^ 16) (rest : Bytes) :
    inet6Addr (hexadecimal w ++ rest) = inet6Rest .init (hexadecimal w ++ rest) := by
  obtain ⟨ds, htext, hds, -, hpos, -⟩ := exists_digits_hexadecimal hw
  cases ds with
  | nil => simp at hpos
  | cons d ds =>
      have hne := (digitChar_lower_ne (hds d List.mem_cons_self)).1
      simp only [htext, List.map_cons, List.cons_append, inet6Addr, if_neg hne]

theorem inet6Rest_congr {s s' : Inet6State} {p p' : Bytes} (h : inet6Loop s p = inet6Loop s' p') :
    inet6Rest s p = inet6Rest s' p' := by
  rw [inet6Rest, inet6Rest, h]

/-- Bytes with a run of zeros in them, put together again. -/
theorem take_replicate_drop {p : Bytes} {z m : Nat} (hlen : z + m ≤ p.length)
    (hzero : ∀ j, z ≤ j → j < z + m → p.getD j 0 = 0) :
    p.take z ++ List.replicate m 0 ++ p.drop (z + m) = p := by
  rw [← take_drop_eq_replicate hlen hzero, List.append_assoc, ← List.drop_drop,
    List.take_append_drop, List.take_append_drop]

section RoundTrip

variable {p : Bytes}

theorem inet6Addr_inet6Text_of_none (hlen : p.length = 16) (hrun : (zeroRun p).zero = none) :
    inet6Addr (inet6Text p) = .ok p := by
  have hnot : ¬ endsDotted p (zeroRun p) := by simp [endsDotted, hrun]
  have hloop : ntopLoop p (zeroRun p) 16 8 0 = joined (wordsFrom p 0 8) :=
    ntopLoop_joined (by decide) (by decide) (by simp [hrun])
  have htext : inet6Text p = joined (wordsFrom p 0 8) := by
    simp [inet6Text, hrun, hnot, hloop]
  have hfirst : joined (wordsFrom p 0 8) =
      hexadecimal (wordAt p 0) ++ 58 :: joined (wordsFrom p 2 7) := rfl
  have hread := @inet6Rest_joined_none [] none 8 _ (wordsFrom_lt p 0 8) (length_wordsFrom p 0 8)
    (by decide)
  rw [htext, hfirst, inet6Addr_hexadecimal (wordAt_lt p 0), ← hfirst]
  refine hread.trans ?_
  rw [flatMap_wordsFrom (by omega), List.nil_append, List.drop_zero,
    List.take_of_length_le (by omega)]

/-- Words, two colons and words. -/
theorem inet6Rest_groups_joined (hlen : p.length = 16) {a m q : Nat} (hsum : a + m + q = 8)
    (hm : 2 ≤ m) (hzero : ∀ j, 2 * a ≤ j → j < 2 * a + 2 * m → p.getD j 0 = 0) :
    inet6Rest .init
        (groups (wordsFrom p 0 a) ++ 58 :: joined (wordsFrom p (2 * a + 2 * m) q)) =
      .ok p := by
  have hfront : (wordsFrom p 0 a).flatMap wordBytes = p.take (2 * a) := by
    rw [flatMap_wordsFrom (by omega), List.drop_zero]
  have hwhole := take_replicate_drop (p := p) (z := 2 * a) (m := 2 * m) (by omega) hzero
  have hgroups := @inet6Loop_groups [] none none 8 _ (wordsFrom_lt p 0 a) (by simp only [length_wordsFrom]; omega)
    (58 :: joined (wordsFrom p (2 * a + 2 * m) q))
  rw [inet6Loop_double_colon, hfront, List.nil_append, length_wordsFrom] at hgroups
  refine (inet6Rest_congr hgroups).trans ?_
  cases q with
  | zero =>
      rw [wordsFrom, joined, inet6Rest_nil (by omega), show (8 - a) * 2 = 2 * m by omega]
      rw [List.drop_of_length_le (by omega), List.append_nil] at hwhole
      rw [hwhole]
  | succ q =>
      have hread := @inet6Rest_joined_some
        (some (joined (wordsFrom p (2 * a + 2 * m) (q + 1)))) (8 - a) _
        (wordsFrom_lt p (2 * a + 2 * m) (q + 1)) (by simp [wordsFrom])
        (by simp only [length_wordsFrom]; omega) (p.take (2 * a)) []
      have hback : (wordsFrom p (2 * a + 2 * m) (q + 1)).flatMap wordBytes =
          p.drop (2 * a + 2 * m) := by
        rw [flatMap_wordsFrom (by omega), List.take_of_length_le]
        simp only [List.length_drop]
        omega
      rw [List.append_nil] at hread
      rw [hread, length_wordsFrom, List.append_nil, hback,
        show (8 - a - (q + 1)) * 2 = 2 * m by omega, hwhole]

theorem inet6Addr_inet6Text_of_some (hlen : p.length = 16) {z : Nat}
    (hrun : (zeroRun p).zero = some z) (hnot : ¬ endsDotted p (zeroRun p)) :
    inet6Addr (inet6Text p) = .ok p := by
  obtain ⟨⟨a, rfl⟩, hm, hle, hzero⟩ := (valid_zeroRun p).kept z hrun
  obtain ⟨m, hmax⟩ : ∃ m, (zeroRun p).max = m := ⟨_, rfl⟩
  rw [hmax] at hm hle hzero
  have hloop : ntopLoop p (zeroRun p) 16 8 0 =
      groups (wordsFrom p 0 a) ++ 58 :: joined (wordsFrom p (2 * a + 2 * m) (8 - a - m)) := by
    have hgroups := @ntopLoop_groups p (zeroRun p) 16 a (8 - a) 0 (by omega) (by omega)
      (by intro j _ hj; rw [hrun]; simp only [ne_eq, Option.some.injEq]; omega)
    have hrest := @ntopLoop_joined p (zeroRun p) (8 - a - m) (7 - a) (2 * a + 2 * m) (by omega)
      (by omega)
      (by intro j hj; rw [hrun]; simp only [ne_eq, Option.some.injEq]; omega)
    have hcolon : ntopLoop p (zeroRun p) 16 (7 - a + 1) (2 * a) =
        58 :: joined (wordsFrom p (2 * a + 2 * m) (8 - a - m)) := by
      rw [ntopLoop, if_pos (by omega), if_pos hrun, hmax,
        show 2 * a + (m - 1) * 2 + 2 = 2 * a + 2 * m by omega, hrest]
    rw [show a + (8 - a) = 8 by omega, Nat.zero_add, show 8 - a = 7 - a + 1 by omega,
      hcolon] at hgroups
    exact hgroups
  have htext : inet6Text p = (if 2 * a = 0 then [58] else []) ++
      (groups (wordsFrom p 0 a) ++ 58 :: joined (wordsFrom p (2 * a + 2 * m) (8 - a - m))) := by
    simp [inet6Text, hrun, hnot, hloop]
  have hread := inet6Rest_groups_joined hlen (a := a) (m := m) (q := 8 - a - m) (by omega) hm hzero
  cases a with
  | zero =>
      rw [htext]
      exact hread
  | succ a =>
      have hfirst : ∀ rest, groups (wordsFrom p 0 (a + 1)) ++ rest =
          hexadecimal (wordAt p 0) ++ 58 :: (groups (wordsFrom p 2 a) ++ rest) := by
        simp [groups, wordsFrom]
      rw [htext, if_neg (by omega), List.nil_append, hfirst,
        inet6Addr_hexadecimal (wordAt_lt p 0), ← hfirst]
      exact hread

/-- Two colons, at most one word, and the dotted text. -/
theorem inet6Addr_groups_dotted {ws : List Nat} (hws : ∀ w ∈ ws, w < 2 ^ 16)
    (hlen : ws.length ≤ 1) {q : Nat → UInt8} (hq : quad q ≠ inaddrNone) :
    inet6Addr (58 :: 58 :: (groups ws ++ sprintf (dotted q))) =
      .ok (List.replicate ((6 - ws.length) * 2) 0 ++ ws.flatMap wordBytes ++
        [q 0, q 1, q 2, q 3]) := by
  have hcolon := @inet6Loop_double_colon [] none 8 (groups ws ++ sprintf (dotted q))
  rw [inet6Loop_groups hws (by omega)] at hcolon
  have hdigit : (if ws = [] then some (groups ws ++ sprintf (dotted q))
      else some (sprintf (dotted q))) = some (sprintf (dotted q)) := by
    by_cases hnil : ws = [] <;> simp [hnil, groups]
  have hread := inet6Rest_dotted (n := 8 - ws.length) q hq (by omega) [] (ws.flatMap wordBytes)
  rw [hdigit] at hcolon
  have hcount : (8 - ws.length - 2) * 2 = (6 - ws.length) * 2 := by omega
  rw [List.nil_append, hcount] at hread
  exact (inet6Rest_congr hcolon).trans hread

abbrev tailQuad (p : Bytes) (k : Nat) : UInt8 := p.getD (12 + k) 0

theorem inet6Text_of_dotted (h : endsDotted p (zeroRun p)) :
    ∃ k, k ≤ 1 ∧ (∀ j, j < 2 * (6 - k) → p.getD j 0 = 0) ∧
      (k = 1 → p.getD 10 0 = 0xff ∧ p.getD 11 0 = 0xff) ∧
      inet6Text p =
        58 :: 58 :: (groups (wordsFrom p 10 k) ++ sprintf (dotted (tailQuad p))) := by
  obtain ⟨hrun, hform⟩ := id h
  obtain ⟨-, -, -, hzero⟩ := (valid_zeroRun p).kept 0 hrun
  have hcolon : ntopLoop p (zeroRun p) 12 8 0 =
      58 :: ntopLoop p (zeroRun p) 12 7 (0 + ((zeroRun p).max - 1) * 2 + 2) := by
    rw [ntopLoop, if_pos (by decide), if_pos hrun]
  have htext : inet6Text p = 58 :: (ntopLoop p (zeroRun p) 12 8 0 ++
      sprintf (dotted (tailQuad p))) := by
    simp only [inet6Text, if_pos hrun, if_pos h, if_true, List.cons_append, List.nil_append]
  rw [htext, hcolon]
  rcases hform with ⟨hmax, hff⟩ | hmax | ⟨hmax, -⟩ <;> rw [hmax] at hzero ⊢
  · -- one word is left between the zeros and the dotted text
    refine ⟨1, Nat.le_refl 1, fun j hj => hzero j (Nat.zero_le j) (by omega), fun _ => hff, ?_⟩
    have hgroup := @ntopLoop_groups p (zeroRun p) 12 1 6 10 (by decide) (by decide)
      (by intro j hj _; rw [hrun]; simp; omega)
    have hend : ntopLoop p (zeroRun p) 12 6 (10 + 2 * 1) = [] := ntopLoop_end (by decide)
    rw [hend, List.append_nil] at hgroup
    rw [show 0 + (5 - 1) * 2 + 2 = 10 by decide, hgroup, List.cons_append]
  · refine ⟨0, by decide, fun j hj => hzero j (Nat.zero_le j) (by omega), by simp, ?_⟩
    rw [ntopLoop_end (by decide)]
    rfl
  · refine ⟨0, by decide, fun j hj => hzero j (Nat.zero_le j) (by omega), by simp, ?_⟩
    rw [ntopLoop_end (by decide)]
    rfl

theorem drop_eq_tailQuad (hlen : p.length = 16) :
    p.drop 12 = [tailQuad p 0, tailQuad p 1, tailQuad p 2, tailQuad p 3] := by
  have hwords := flatMap_wordsFrom (p := p) (i := 12) (k := 2) (by omega)
  rw [List.take_of_length_le (by simp [hlen])] at hwords
  rw [← hwords]
  simp [wordsFrom, wordBytes_wordAt]

/-- The sixteen bytes of an address that is written with a dotted end. -/
theorem eq_of_dotted (hlen : p.length = 16) {k : Nat} (hk : k ≤ 1)
    (hzero : ∀ j, j < 2 * (6 - k) → p.getD j 0 = 0) :
    List.replicate ((6 - k) * 2) 0 ++ (wordsFrom p 10 k).flatMap wordBytes ++
        [tailQuad p 0, tailQuad p 1, tailQuad p 2, tailQuad p 3] =
      p := by
  have hwhole := take_replicate_drop (p := p) (z := 0) (m := 2 * (6 - k)) (by omega)
    (fun j _ hj => hzero j (by omega))
  rw [← drop_eq_tailQuad hlen]
  rcases (show k = 0 ∨ k = 1 by omega) with rfl | rfl
  · simpa [wordsFrom] using hwhole
  · rw [flatMap_wordsFrom (by omega), List.append_assoc]
    have hdrop : (p.drop 10).take 2 ++ p.drop 12 = p.drop 10 := by
      rw [show p.drop 12 = (p.drop 10).drop 2 by simp, List.take_append_drop]
    rw [hdrop]
    simpa using hwhole

end RoundTrip

/-- The addresses whose text ends in `255.255.255.255`. -/
def In6Addr.EndsInNone (addr : In6Addr) : Prop :=
  addr.bytes = List.replicate 12 0 ++ List.replicate 4 255 ∨
    addr.bytes = List.replicate 10 0 ++ List.replicate 6 255

theorem quad_eq_inaddrNone {q : Nat → UInt8} (h : quad q = inaddrNone) :
    q 0 = 255 ∧ q 1 = 255 ∧ q 2 = 255 ∧ q 3 = 255 := by
  have hbytes := quad_bytes q
  rw [h] at hbytes
  have hones : ([255, 255, 255, 255] : Bytes) = [q 0, q 1, q 2, q 3] := hbytes
  simp only [List.cons.injEq, and_true] at hones
  exact ⟨hones.1.symm, hones.2.1.symm, hones.2.2.1.symm, hones.2.2.2.symm⟩

/-- Every IPv6 address is read back from its text, with two exceptions. -/
theorem inet6Addr_inet6Text (addr : In6Addr) (h : ¬ addr.EndsInNone) :
    inet6Addr (inet6Text addr.bytes) = .ok addr.bytes := by
  have hlen := addr.length_bytes
  by_cases hdotted : endsDotted addr.bytes (zeroRun addr.bytes)
  · obtain ⟨k, hk, hzero, hff, htext⟩ := inet6Text_of_dotted hdotted
    have hwhole := eq_of_dotted hlen hk hzero
    have hq : quad (tailQuad addr.bytes) ≠ inaddrNone := by
      intro hnone
      obtain ⟨h0, h1, h2, h3⟩ := quad_eq_inaddrNone hnone
      apply h
      rw [h0, h1, h2, h3] at hwhole
      rcases (show k = 0 ∨ k = 1 by omega) with rfl | rfl
      · exact .inl hwhole.symm
      · right
        rw [wordsFrom, wordsFrom, List.flatMap_cons, wordBytes_wordAt, (hff rfl).1,
          (hff rfl).2] at hwhole
        exact hwhole.symm
    have hread := inet6Addr_groups_dotted (wordsFrom_lt addr.bytes 10 k)
      (by simpa using hk) hq
    rw [htext, hread, length_wordsFrom, hwhole]
  · cases hrun : (zeroRun addr.bytes).zero with
    | none => exact inet6Addr_inet6Text_of_none hlen hrun
    | some z => exact inet6Addr_inet6Text_of_some hlen hrun hdotted

theorem inet6Addr_of_endsInNone {addr : In6Addr} (h : addr.EndsInNone) :
    ∃ stored, inet6Addr (inet6Text addr.bytes) = .error stored := by
  rcases h with h | h <;> rw [h]
  · exact ⟨[], by decide +kernel⟩
  · exact ⟨[255, 255], by decide +kernel⟩

end Nginx
