import Dockerfiles.Nginx.String

/-! # Addresses as text

The readers and writers of IPv4 and IPv6 addresses in `src/core/ngx_inet.c`. An
`in_addr_t` is held as the number whose bytes, highest first, are those in memory.
A failed read of an IPv6 address keeps the bytes that were stored before it failed,
so that what is stored can be bounded on every path.
-/

namespace Nginx

/-! ## IPv4 -/

/-- `INADDR_NONE`, which is also the address `255.255.255.255`. -/
def inaddrNone : BitVec 32 := 0xffffffff#32

def inetAddrLoop : BitVec 32 → Nat → Nat → Bytes → BitVec 32
  | addr, octet, n, [] =>
      if n = 3 then (addr <<< 8) + BitVec.ofNat 32 octet else inaddrNone
  | addr, octet, n, c :: p =>
      match digit c with
      | some d =>
          if octet * 10 + d > 255 then inaddrNone
          else inetAddrLoop addr (octet * 10 + d) n p
      | none =>
          if c = 46 then inetAddrLoop ((addr <<< 8) + BitVec.ofNat 32 octet) 0 (n + 1) p
          else inaddrNone

def inetAddr (text : Bytes) : BitVec 32 := inetAddrLoop 0 0 0 text

/-- Byte `k` of an `in_addr_t` in memory. -/
def octet (addr : BitVec 32) (k : Nat) : UInt8 := UInt8.ofNat (addr.toNat / 2 ^ (24 - 8 * k))

/-- `"%ud.%ud.%ud.%ud"`. -/
def dotted (p : Nat → UInt8) : List Item :=
  [.unsigned 32 0 .no (p 0).toNat, .char 46, .unsigned 32 0 .no (p 1).toNat, .char 46,
    .unsigned 32 0 .no (p 2).toNat, .char 46, .unsigned 32 0 .no (p 3).toNat]

/-! ## IPv6, read -/

structure In6Addr where
  bytes : Bytes
  length_bytes : bytes.length = 16
deriving DecidableEq

def wordBytes (word : Nat) : Bytes := [UInt8.ofNat (word / 256), UInt8.ofNat word]

@[simp] theorem length_wordBytes (word : Nat) : (wordBytes word).length = 2 := rfl

/-- The variables of `ngx_inet6_addr`: the bytes stored through `addr`, the place
kept in `zero`, and the rest of the text from `digit` on (`len4 - 1` bytes of it). -/
structure Inet6State where
  addr : Bytes
  zero : Option Nat
  digit : Option Bytes
  nibbles : Nat
  word : Nat
  n : Nat

def Inet6State.init : Inet6State :=
  { addr := [], zero := none, digit := none, nibbles := 0, word := 0, n := 8 }

def inet6Loop : Inet6State → Bytes → Except Bytes Inet6State
  | s, [] => .ok s
  | s, c :: p =>
      if c = 58 then
        if s.nibbles ≠ 0 then
          if s.n - 1 ≠ 0 then
            inet6Loop
              { s with
                addr := s.addr ++ wordBytes s.word, digit := some p, n := s.n - 1,
                nibbles := 0, word := 0 } p
          else .error (s.addr ++ wordBytes s.word)
        else if s.zero = none then
          inet6Loop { s with digit := some p, zero := some s.addr.length } p
        else .error s.addr
      else if c = 46 ∧ s.nibbles ≠ 0 then
        match s.digit with
        | none => .error s.addr
        | some digit =>
            if s.n < 2 then .error s.addr
            else if inetAddr digit = inaddrNone then .error s.addr
            else
              let word := (inetAddr digit).toNat
              .ok
                { s with
                  addr := s.addr ++ [UInt8.ofNat (word / 2 ^ 24), UInt8.ofNat (word / 2 ^ 16)],
                  word := word, n := s.n - 1 }
      else if s.nibbles + 1 > 4 then .error s.addr
      else
        match hexDigit c with
        | some d => inet6Loop { s with nibbles := s.nibbles + 1, word := s.word * 16 + d } p
        | none => .error s.addr

/-- What `ngx_inet6_addr` does after its loop: the bytes from `zero` on are moved to
the end of the address. -/
def inet6Finish (s : Inet6State) : Except Bytes Bytes :=
  if s.nibbles = 0 ∧ s.zero = none then .error s.addr
  else
    let addr := s.addr ++ wordBytes s.word
    let n := s.n - 1
    if n ≠ 0 then
      match s.zero with
      | some z => .ok (addr.take z ++ List.replicate (n * 2) 0 ++ addr.drop z)
      | none => .error addr
    else
      match s.zero with
      | none => .ok addr
      | some _ => .error addr

/-- The loop of `ngx_inet6_addr` from some state on, and what is after it. -/
def inet6Rest (s : Inet6State) (p : Bytes) : Except Bytes Bytes :=
  match inet6Loop s p with
  | .error addr => .error addr
  | .ok s => inet6Finish s

def inet6Addr : Bytes → Except Bytes Bytes
  | [] => .error []
  | c :: p => inet6Rest .init (if c = 58 then p else c :: p)

/-! ### Bounds -/

/-- What is stored and what is still expected make an address, and the place of the
zeros is among what is stored. -/
structure Inet6State.Valid (s : Inet6State) : Prop where
  length_addr : s.addr.length + 2 * s.n = 16
  pos : 0 < s.n
  zero_le : ∀ z, s.zero = some z → z ≤ s.addr.length

theorem Inet6State.valid_init : Inet6State.init.Valid :=
  ⟨rfl, by decide, by simp [init]⟩

/-- What holds of a result: bytes stored by a failed read fit, and a read that goes
on has a valid state. -/
def Fits : Except Bytes Inet6State → Prop
  | .error addr => addr.length ≤ 16
  | .ok s => s.Valid

theorem fits_inet6Loop {s : Inet6State} (hs : s.Valid) (p : Bytes) : Fits (inet6Loop s p) := by
  induction p generalizing s with
  | nil => exact hs
  | cons c p ih =>
      have hlen := hs.length_addr
      have hpos := hs.pos
      have hkept : Fits (.error s.addr) := by
        show s.addr.length ≤ 16
        omega
      rw [inet6Loop]
      split
      · split
        · split
          · apply ih
            refine ⟨?_, ?_, ?_⟩
            · simp only [List.length_append, length_wordBytes]
              omega
            · show 0 < s.n - 1
              omega
            · intro z hz
              have := hs.zero_le z hz
              simp only [List.length_append, length_wordBytes]
              omega
          · show (s.addr ++ wordBytes s.word).length ≤ 16
            simp only [List.length_append, length_wordBytes]
            omega
        · split
          · apply ih
            refine ⟨hlen, hpos, ?_⟩
            intro z hz
            cases hz
            exact Nat.le_refl _
          · exact hkept
      · split
        · split
          · exact hkept
          · split
            · exact hkept
            · split
              · exact hkept
              · next hn _ =>
                  refine ⟨?_, ?_, ?_⟩
                  · simp only [List.length_append, List.length_cons, List.length_nil]
                    omega
                  · show 0 < s.n - 1
                    omega
                  · intro z hz
                    have := hs.zero_le z hz
                    simp only [List.length_append, List.length_cons, List.length_nil]
                    omega
        · split
          · exact hkept
          · split
            · exact ih ⟨hlen, hpos, hs.zero_le⟩
            · exact hkept

/-- The same of the whole read: an accepted text fills the sixteen bytes. -/
def Fills : Except Bytes Bytes → Prop
  | .error addr => addr.length ≤ 16
  | .ok addr => addr.length = 16

theorem fills_inet6Finish {s : Inet6State} (hs : s.Valid) : Fills (inet6Finish s) := by
  have hlen := hs.length_addr
  have hpos := hs.pos
  have hstored : (s.addr ++ wordBytes s.word).length + 2 * (s.n - 1) = 16 := by
    simp only [List.length_append, length_wordBytes]
    omega
  have hkept : Fills (.error (s.addr ++ wordBytes s.word)) := by
    show (s.addr ++ wordBytes s.word).length ≤ 16
    omega
  simp only [inet6Finish]
  split
  · show s.addr.length ≤ 16
    omega
  · split
    · split
      · next z hz =>
          have hz := hs.zero_le z hz
          simp only [Fills, List.length_append, List.length_take, List.length_drop,
            List.length_replicate, length_wordBytes] at hstored ⊢
          omega
      · exact hkept
    · split
      · show (s.addr ++ wordBytes s.word).length = 16
        omega
      · exact hkept

theorem fills_inet6Rest {s : Inet6State} (hs : s.Valid) (p : Bytes) : Fills (inet6Rest s p) := by
  have hfits := fits_inet6Loop hs p
  rw [inet6Rest]
  cases hloop : inet6Loop s p with
  | error addr =>
      rw [hloop] at hfits
      exact hfits
  | ok s =>
      rw [hloop] at hfits
      exact fills_inet6Finish hfits

/-- Whatever the text is, no byte is stored past the sixteen of the address, and an
accepted text fills all of them. -/
theorem fills_inet6Addr (p : Bytes) : Fills (inet6Addr p) := by
  cases p with
  | nil => exact Nat.zero_le 16
  | cons c p => exact fills_inet6Rest Inet6State.valid_init _

theorem length_of_inet6Addr {p addr : Bytes} (h : inet6Addr p = .ok addr) : addr.length = 16 := by
  have := fills_inet6Addr p
  rw [h] at this
  exact this

/-! ## IPv6, written -/

/-- The variables of the first loop of `ngx_inet6_ntop`, with `none` for `-1`. -/
structure ZeroRun where
  zero : Option Nat
  last : Option Nat
  max : Nat
  n : Nat
deriving DecidableEq

def ZeroRun.keep (s : ZeroRun) : ZeroRun :=
  if s.max < s.n then { s with zero := s.last, max := s.n } else s

/-- The body of the first loop of `ngx_inet6_ntop`. -/
def ZeroRun.step (p : Bytes) (s : ZeroRun) (i : Nat) : ZeroRun :=
  if p.getD i 0 ≠ 0 ∨ p.getD (i + 1) 0 ≠ 0 then { s.keep with n := 0 }
  else { s with last := if s.n = 0 then some i else s.last, n := s.n + 1 }

def zeroRun (p : Bytes) : ZeroRun :=
  ([0, 2, 4, 6, 8, 10, 12, 14].foldl (ZeroRun.step p)
    { zero := none, last := none, max := 1, n := 0 }).keep

def wordAt (p : Bytes) (i : Nat) : Nat := (p.getD i 0).toNat * 256 + (p.getD (i + 1) 0).toNat

/-- The second loop of `ngx_inet6_ntop`, which goes round at most eight times. -/
def ntopLoop (p : Bytes) (run : ZeroRun) (n : Nat) : Nat → Nat → Bytes
  | 0, _ => []
  | rounds + 1, i =>
      if i < n then
        if run.zero = some i then
          58 :: ntopLoop p run n rounds (i + (run.max - 1) * 2 + 2)
        else
          hexadecimal (wordAt p i) ++ (if i < 14 then [58] else []) ++
            ntopLoop p run n rounds (i + 2)
      else []

def endsDotted (p : Bytes) (run : ZeroRun) : Prop :=
  run.zero = some 0 ∧
    ((run.max = 5 ∧ p.getD 10 0 = 0xff ∧ p.getD 11 0 = 0xff) ∨ run.max = 6 ∨
      (run.max = 7 ∧ p.getD 14 0 ≠ 0 ∧ p.getD 15 0 ≠ 1))

instance (p : Bytes) (run : ZeroRun) : Decidable (endsDotted p run) := by
  unfold endsDotted
  infer_instance

/-- The text `ngx_inet6_ntop` writes when it has the room it asks for. -/
def inet6Text (p : Bytes) : Bytes :=
  let run := zeroRun p
  let n := if endsDotted p run then 12 else 16
  (if run.zero = some 0 then [58] else []) ++ ntopLoop p run n 8 0 ++
    (if n = 12 then sprintf (dotted fun k => p.getD (12 + k) 0) else [])

def inet6Addrstrlen : Nat := 45

/-- `NGX_SOCKADDR_STRLEN`, where there are unix sockets: a path of 108 bytes after `unix:`. -/
def sockaddrStrlen : Nat := 113

def inet6Ntop (p : In6Addr) (len : Nat) : Bytes :=
  if len < inet6Addrstrlen then [] else inet6Text p.bytes

/-! ## Socket addresses -/

inductive Sockaddr where
  | inet (addr : BitVec 32) (port : BitVec 16)
  | inet6 (addr : In6Addr) (port : BitVec 16)
  | unix (path : Bytes)
deriving DecidableEq

def inetNtop (sa : Sockaddr) (len : Nat) : Bytes :=
  match sa with
  | .inet addr _ => snprintf len (dotted (octet addr))
  | .inet6 addr _ => inet6Ntop addr len
  | .unix _ => []

/-- `ngx_sock_ntop`. The zero byte after the path of a `unix` socket is written and
not counted. -/
def sockNtop (sa : Sockaddr) (len : Nat) (port : Bool) : Bytes :=
  match sa with
  | .inet addr sinPort =>
      if port then snprintf len (dotted (octet addr) ++ [.char 58, .signed 32 0 sinPort.toNat])
      else snprintf len (dotted (octet addr))
  | .inet6 addr sin6Port =>
      if port then
        91 :: inet6Ntop addr len ++ sprintf [.char 93, .char 58, .signed 32 0 sin6Port.toNat]
      else inet6Ntop addr len
  | .unix path => (snprintf len (([117, 110, 105, 120, 58] ++ path ++ [0]).map .char)).dropLast

def readIn6Addr (text : Bytes) : Option In6Addr :=
  match h : inet6Addr text with
  | .ok addr => some ⟨addr, length_of_inet6Addr h⟩
  | .error _ => none

def parseAddr (text : Bytes) : Option Sockaddr :=
  if inetAddr text ≠ inaddrNone then some (.inet (inetAddr text) 0)
  else
    match readIn6Addr text with
    | some addr => some (.inet6 addr 0)
    | none => none

def Sockaddr.setPort (port : Nat) : Sockaddr → Sockaddr
  | .inet addr _ => .inet addr (BitVec.ofNat 16 port)
  | .inet6 addr _ => .inet6 addr (BitVec.ofNat 16 port)
  | .unix path => .unix path

/-- The address text and the port text of `ngx_parse_addr_port`, as the pointers and
lengths of the source mark them out. -/
def splitPort (text : Bytes) : Option (Bytes × Bytes) :=
  if text.head? = some 91 then
    match strlchr text 93 with
    | none => none
    | some p =>
        if p = text.length - 1 ∨ text.getD (p + 1) 0 ≠ 58 then none
        else
          let plen := text.length - (p + 2)
          some ((text.drop 1).take (text.length - 2 - (plen + 1)), text.drop (p + 2))
  else
    match strlchr text 58 with
    | none => none
    | some p =>
        let plen := text.length - (p + 1)
        some (text.take (text.length - (plen + 1)), text.drop (p + 1))

def parseAddrPort (text : Bytes) : Option Sockaddr :=
  match parseAddr text with
  | some addr => some addr
  | none =>
      match splitPort text with
      | none => none
      | some (text, line) =>
          match atoi line with
          | none => none
          | some port =>
              if port < 1 ∨ port > 65535 then none
              else (parseAddr text).map (Sockaddr.setPort port)

end Nginx
