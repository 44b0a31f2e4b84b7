import Dockerfiles.Numeral.Digits

/-! # Numbers in text

What the address code of `src/core/ngx_string.c` and `src/core/ngx_string.h` uses:
the number conversions of `ngx_sprintf` and `ngx_snprintf`, `ngx_atoi` and
`ngx_strlchr`. A format string is given by the list of its items. `ngx_sprintf` has
no end of the buffer to look at; `ngx_snprintf` has.
-/

namespace Nginx

abbrev Bytes := List UInt8

/-! ## Numbers written -/

/-- The argument `hexadecimal` of `ngx_sprintf_num`. -/
inductive Hexadecimal where
  | no
  | lower
  | upper
deriving Repr, DecidableEq

/-- `NGX_INT64_LEN`, the room in `temp`. -/
def int64Len : Nat := 20

/-- `d + '0'`, `hex[d]` or `HEX[d]`. -/
def digitChar : Hexadecimal → Nat → UInt8
  | .no, d => UInt8.ofNat (48 + d)
  | .lower, d => if d < 10 then UInt8.ofNat (48 + d) else UInt8.ofNat (87 + d)
  | .upper, d => if d < 10 then UInt8.ofNat (48 + d) else UInt8.ofNat (55 + d)

/-- What the loops of `ngx_sprintf_num` put in `temp`, as digits. -/
def numDigits (ui64 : Nat) : Hexadecimal → List Nat
  | .no =>
      if ui64 ≤ 4294967295 then Numeral.pushDigits 10 int64Len (ui64 % 2 ^ 32) []
      else Numeral.pushDigits 10 int64Len ui64 []
  | .lower => Numeral.pushDigits 16 int64Len ui64 []
  | .upper => Numeral.pushDigits 16 int64Len ui64 []

/-- `ngx_sprintf_num` without an end of the buffer. -/
def sprintfNum (ui64 : Nat) (zero : UInt8) (hexadecimal : Hexadecimal) (width : Nat) : Bytes :=
  let p := (numDigits ui64 hexadecimal).map (digitChar hexadecimal)
  List.replicate (width - p.length) zero ++ p

/-- `ngx_sprintf_num` with `room` bytes before `last`. -/
def sprintfNumWithin (room ui64 : Nat) (zero : UInt8) (hexadecimal : Hexadecimal)
    (width : Nat) : Bytes :=
  let p := (numDigits ui64 hexadecimal).map (digitChar hexadecimal)
  let padding := min (width - p.length) room
  List.replicate padding zero ++ p.take (room - padding)

inductive Item where
  | char (c : UInt8)
  | signed (zero : UInt8) (width : Nat) (i64 : Int)
  | unsigned (zero : UInt8) (width : Nat) (hexadecimal : Hexadecimal) (ui64 : Nat)

def Item.text : Item → Bytes
  | .char c => [c]
  | .signed zero width i64 =>
      if i64 < 0 then 45 :: sprintfNum (-i64).toNat zero .no width
      else sprintfNum i64.toNat zero .no width
  | .unsigned zero width hexadecimal ui64 => sprintfNum ui64 zero hexadecimal width

/-- The text of one item when at least one byte is left. The minus is written
without looking at `last`. -/
def Item.textWithin (room : Nat) : Item → Bytes
  | .char c => [c]
  | .signed zero width i64 =>
      if i64 < 0 then 45 :: sprintfNumWithin (room - 1) (-i64).toNat zero .no width
      else sprintfNumWithin room i64.toNat zero .no width
  | .unsigned zero width hexadecimal ui64 => sprintfNumWithin room ui64 zero hexadecimal width

def sprintf (items : List Item) : Bytes := items.flatMap Item.text

/-- `ngx_snprintf`: the loop of `ngx_vslprintf` ends when no byte is left. -/
def snprintf (max : Nat) : List Item → Bytes
  | [] => []
  | item :: items =>
      if max = 0 then []
      else
        let text := item.textWithin max
        text ++ snprintf (max - text.length) items

theorem sprintfNumWithin_eq_take (room ui64 : Nat) (zero : UInt8) (hexadecimal : Hexadecimal)
    (width : Nat) :
    sprintfNumWithin room ui64 zero hexadecimal width =
      (sprintfNum ui64 zero hexadecimal width).take room := by
  simp only [sprintfNumWithin, sprintfNum, List.take_append, List.take_replicate,
    List.length_replicate, Nat.min_comm]
  congr 2
  omega

theorem Item.textWithin_eq_take (item : Item) {room : Nat} (hroom : 0 < room) :
    item.textWithin room = item.text.take room := by
  obtain ⟨room, rfl⟩ := Nat.exists_eq_succ_of_ne_zero (Nat.pos_iff_ne_zero.mp hroom)
  cases item with
  | char c => simp [Item.textWithin, Item.text]
  | signed zero width i64 =>
      simp only [Item.textWithin, Item.text]
      split <;> simp [sprintfNumWithin_eq_take]
  | unsigned zero width hexadecimal ui64 =>
      simp [Item.textWithin, Item.text, sprintfNumWithin_eq_take]

/-- A text that has no room is cut off, and nothing else happens to it. -/
theorem snprintf_eq_take (max : Nat) (items : List Item) :
    snprintf max items = (sprintf items).take max := by
  induction items generalizing max with
  | nil => simp [snprintf, sprintf]
  | cons item items ih =>
      rw [snprintf]
      split
      · next hmax => simp [hmax]
      · next hmax =>
          have hcons : sprintf (item :: items) = item.text ++ sprintf items := rfl
          have htext := item.textWithin_eq_take (Nat.pos_iff_ne_zero.mpr hmax)
          simp only [hcons, List.take_append, ih, htext, List.length_take]
          congr 2
          omega

/-! ## Digits read -/

def digit (c : UInt8) : Option Nat :=
  if 48 ≤ c.toNat ∧ c.toNat ≤ 57 then some (c.toNat - 48) else none

/-- The digit of a byte in `ngx_inet6_addr`: letters are read after `c |= 0x20`. -/
def hexDigit (c : UInt8) : Option Nat :=
  match digit c with
  | some d => some d
  | none =>
      let c := c ||| 0x20
      if 97 ≤ c.toNat ∧ c.toNat ≤ 102 then some (c.toNat - 97 + 10) else none

theorem digit_digitChar {d : Nat} (hd : d < 10) : digit (digitChar .no d) = some d := by
  have hall : ∀ d : Fin 10, digit (digitChar .no d) = some d.val := by decide
  exact hall ⟨d, hd⟩

theorem hexDigit_digitChar {d : Nat} (hd : d < 16) : hexDigit (digitChar .lower d) = some d := by
  have hall : ∀ d : Fin 16, hexDigit (digitChar .lower d) = some d.val := by decide
  exact hall ⟨d, hd⟩

/-- The loop of `ngx_atoi`. `cutoff` and `cutlim` are the quotient and the
remainder of `NGX_MAX_INT_T_VALUE` by ten. -/
def atoiLoop : Nat → Bytes → Option Nat
  | value, [] => some value
  | value, c :: line =>
      match digit c with
      | none => none
      | some d =>
          if value ≥ 922337203685477580 ∧ (value > 922337203685477580 ∨ d > 7) then none
          else atoiLoop (value * 10 + d) line

def atoi (line : Bytes) : Option Nat :=
  if line = [] then none else atoiLoop 0 line

def strlchr (p : Bytes) (c : UInt8) : Option Nat := p.idxOf? c

theorem strlchr_append_cons {p : Bytes} {c : UInt8} (hc : c ∉ p) (rest : Bytes) :
    strlchr (p ++ c :: rest) c = some p.length := by
  induction p with
  | nil => simp [strlchr, List.idxOf?_cons]
  | cons a p ih =>
      have hac : ¬ a = c := fun h => hc (h ▸ List.mem_cons_self)
      have hp : c ∉ p := fun h => hc (List.mem_cons_of_mem a h)
      have := ih hp
      simp only [strlchr] at this ⊢
      simp [List.idxOf?_cons, hac, this]

/-! ## The numerals of the address texts -/

/-- `%ud`. -/
def decimal (n : Nat) : Bytes := (Item.unsigned 32 0 .no n).text

/-- `%xd`. -/
def hexadecimal (n : Nat) : Bytes := (Item.unsigned 32 0 .lower n).text

theorem decimal_eq {n : Nat} (hn : n < 2 ^ 32) :
    decimal n = (Numeral.pushDigits 10 int64Len n []).map (digitChar .no) := by
  have hle : n ≤ 4294967295 := by omega
  have hmod : n % 2 ^ 32 = n := Nat.mod_eq_of_lt hn
  simp only [decimal, Item.text, sprintfNum, numDigits, if_pos hle, hmod]
  simp

theorem hexadecimal_eq (n : Nat) :
    hexadecimal n = (Numeral.pushDigits 16 int64Len n []).map (digitChar .lower) := by
  simp [hexadecimal, Item.text, sprintfNum, numDigits]

/-- A decimal number of a machine word is a nonempty row of digits that stand for it. -/
theorem exists_digits_decimal {n k : Nat} (hn : n < 10 ^ (k + 1)) (hk : k < 9) :
    ∃ ds : List Nat, decimal n = ds.map (digitChar .no) ∧ (∀ d ∈ ds, d < 10) ∧
      Numeral.value 10 0 ds = n ∧ 0 < ds.length ∧ ds.length ≤ k + 1 := by
  have hpow : (10 : Nat) ^ (k + 1) ≤ 10 ^ 9 := Nat.pow_le_pow_right (by decide) hk
  refine ⟨Numeral.pushDigits 10 int64Len n [], decimal_eq (by omega),
    Numeral.pushDigits_lt (by decide) _ _ (by simp), ?_, ?_, ?_⟩
  · exact Numeral.value_pushDigits (by omega) []
  · exact Numeral.length_lt_length_pushDigits 19 n []
  · simpa using Numeral.length_pushDigits_le hn int64Len []

/-- So is the hexadecimal number of a pair of bytes. -/
theorem exists_digits_hexadecimal {n : Nat} (hn : n < 2 ^ 16) :
    ∃ ds : List Nat, hexadecimal n = ds.map (digitChar .lower) ∧ (∀ d ∈ ds, d < 16) ∧
      Numeral.value 16 0 ds = n ∧ 0 < ds.length ∧ ds.length ≤ 4 := by
  refine ⟨Numeral.pushDigits 16 int64Len n [], hexadecimal_eq n,
    Numeral.pushDigits_lt (by decide) _ _ (by simp), ?_, ?_, ?_⟩
  · exact Numeral.value_pushDigits (by omega) []
  · exact Numeral.length_lt_length_pushDigits 19 n []
  · simpa using Numeral.length_pushDigits_le (k := 3) (by omega) int64Len []

theorem atoiLoop_digits {ds : List Nat} (hds : ∀ d ∈ ds, d < 10) (value : Nat)
    (hv : Numeral.value 10 value ds < 922337203685477580) (rest : Bytes) :
    atoiLoop value (ds.map (digitChar .no) ++ rest) =
      atoiLoop (Numeral.value 10 value ds) rest := by
  induction ds generalizing value with
  | nil => rfl
  | cons d ds ih =>
      have hd : d < 10 := hds d List.mem_cons_self
      have hle := Numeral.le_value (by decide : 0 < 10) (value * 10 + d) ds
      have hlt : ¬ value ≥ 922337203685477580 := by
        rw [Numeral.value_cons] at hv
        omega
      rw [List.map_cons, List.cons_append, atoiLoop]
      simp only [digit_digitChar hd, hlt, false_and, if_false]
      exact ih (fun e he => hds e (List.mem_cons_of_mem d he)) _ hv

/-- A port or a prefix length is read back. -/
theorem atoi_decimal {n : Nat} (hn : n < 10 ^ 9) : atoi (decimal n) = some n := by
  obtain ⟨ds, htext, hds, hvalue, hpos, -⟩ := exists_digits_decimal (k := 8) hn (by decide)
  have hne : ds.map (digitChar .no) ≠ [] := by
    simpa [List.ne_nil_iff_length_pos] using hpos
  have hloop := atoiLoop_digits hds 0 (by omega) []
  rw [List.append_nil, hvalue] at hloop
  rw [atoi, htext, if_neg hne, hloop]
  rfl

end Nginx
