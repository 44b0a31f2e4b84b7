import Dockerfiles.Nginx.InetText

/-! # Socket addresses written and read back

`ngx_sock_ntop` writes an address with its port, and `ngx_parse_addr_port` reads it.
The reader first takes the whole text for an address; that it never is one, and that
the text is then split where it was put together, follows from the characters the
parts are made of.
-/

namespace Nginx

/-! ## Characters of the texts -/

def AddrChar (c : UInt8) : Prop := c = 46 ∨ c = 58 ∨ ∃ d, d < 16 ∧ c = digitChar .lower d

theorem AddrChar.ne {c : UInt8} (h : AddrChar c) : c ≠ 91 ∧ c ≠ 93 := by
  rcases h with rfl | rfl | ⟨d, hd, rfl⟩
  · decide
  · decide
  · have hall : ∀ d : Fin 16, digitChar .lower d ≠ 91 ∧ digitChar .lower d ≠ 93 := by decide
    exact hall ⟨d, hd⟩

theorem addrChar_hexadecimal {w : Nat} (hw : w < 2 ^ 16) : ∀ c ∈ hexadecimal w, AddrChar c := by
  obtain ⟨ds, htext, hds, -, -, -⟩ := exists_digits_hexadecimal hw
  rw [htext]
  intro c hc
  obtain ⟨d, hd, rfl⟩ := List.mem_map.mp hc
  exact .inr (.inr ⟨d, hds d hd, rfl⟩)

theorem digit_of_mem_decimal {v : Nat} (hv : v < 10 ^ 9) :
    ∀ c ∈ decimal v, ∃ d, d < 10 ∧ c = digitChar .no d := by
  obtain ⟨ds, htext, hds, -, -, -⟩ := exists_digits_decimal (k := 8) hv (by decide)
  rw [htext]
  intro c hc
  obtain ⟨d, hd, rfl⟩ := List.mem_map.mp hc
  exact ⟨d, hds d hd, rfl⟩

theorem colon_notMem_dotted (p : Nat → UInt8) : (58 : UInt8) ∉ sprintf (dotted p) := by
  have hdecimal : ∀ v : UInt8, (58 : UInt8) ∉ decimal v.toNat := by
    intro v hmem
    have hv := v.toNat_lt
    obtain ⟨d, hd, hc⟩ := digit_of_mem_decimal (by omega) 58 hmem
    have hall : ∀ d : Fin 10, (58 : UInt8) ≠ digitChar .no d := by decide
    exact hall ⟨d, hd⟩ hc
  have hdot : (58 : UInt8) ≠ 46 := by decide
  simp [sprintf_dotted, hdecimal, hdot]

theorem addrChar_dotted (p : Nat → UInt8) : ∀ c ∈ sprintf (dotted p), AddrChar c := by
  have hdecimal : ∀ v : UInt8, ∀ c ∈ decimal v.toNat, AddrChar c := by
    intro v c hmem
    have hv := v.toNat_lt
    obtain ⟨d, hd, rfl⟩ := digit_of_mem_decimal (by omega) c hmem
    exact .inr (.inr ⟨d, by omega, (if_pos hd).symm⟩)
  intro c hc
  simp only [sprintf_dotted, List.mem_append, List.mem_cons] at hc
  rcases hc with hc | rfl | hc | rfl | hc | rfl | hc
  all_goals first | exact hdecimal _ _ hc | exact .inl rfl

theorem addrChar_ntopLoop (p : Bytes) (run : ZeroRun) (n rounds i : Nat) :
    ∀ c ∈ ntopLoop p run n rounds i, AddrChar c := by
  induction rounds generalizing i with
  | zero => simp [ntopLoop]
  | succ rounds ih =>
      intro c hc
      rw [ntopLoop] at hc
      split at hc
      · split at hc
        · rcases List.mem_cons.mp hc with rfl | hc
          · exact .inr (.inl rfl)
          · exact ih _ c hc
        · simp only [List.mem_append] at hc
          rcases hc with (hc | hc) | hc
          · exact addrChar_hexadecimal (wordAt_lt p i) c hc
          · split at hc
            · exact .inr (.inl (List.mem_singleton.mp hc))
            · simp at hc
          · exact ih _ c hc
      · simp at hc

theorem addrChar_inet6Text (p : Bytes) : ∀ c ∈ inet6Text p, AddrChar c := by
  intro c hc
  simp only [inet6Text, List.mem_append] at hc
  rcases hc with (hc | hc) | hc
  · split at hc
    · exact .inr (.inl (List.mem_singleton.mp hc))
    · simp at hc
  · exact addrChar_ntopLoop p _ _ _ _ c hc
  · split at hc
    · exact addrChar_dotted _ c hc
    · simp at hc

theorem colon_mem_inet6Text (p : Bytes) : (58 : UInt8) ∈ inet6Text p := by
  simp only [inet6Text, List.mem_append]
  left
  by_cases hrun : (zeroRun p).zero = some 0
  · left
    simp [hrun]
  · right
    have hn : 0 < if endsDotted p (zeroRun p) then 12 else 16 := by
      split <;> decide
    rw [ntopLoop, if_pos hn, if_neg hrun]
    simp

/-! ## Socket addresses -/

theorem inetAddrLoop_of_colon {text : Bytes} (h : (58 : UInt8) ∈ text) (addr : BitVec 32)
    (octet n : Nat) : inetAddrLoop addr octet n text = inaddrNone := by
  induction text generalizing addr octet n with
  | nil => simp at h
  | cons c text ih =>
      rw [inetAddrLoop]
      by_cases hc : c = 58
      · subst hc
        rfl
      · have hmem : (58 : UInt8) ∈ text := by
          rcases List.mem_cons.mp h with heq | hmem
          · exact absurd heq.symm hc
          · exact hmem
        split
        · split
          · rfl
          · exact ih hmem _ _ _
        · split
          · exact ih hmem _ _ _
          · rfl

theorem inetAddr_of_colon {text : Bytes} (h : (58 : UInt8) ∈ text) : inetAddr text = inaddrNone :=
  inetAddrLoop_of_colon h 0 0 0

theorem parseAddr_of_inetAddr {text : Bytes} (h : inetAddr text ≠ inaddrNone) :
    parseAddr text = some (.inet (inetAddr text) 0) := by
  rw [parseAddr, if_pos h]

theorem readIn6Addr_of_ok {text : Bytes} {addr : In6Addr} (h : inet6Addr text = .ok addr.bytes) :
    readIn6Addr text = some addr := by
  rw [readIn6Addr]
  split
  · next bytes hbytes =>
      have heq : bytes = addr.bytes := by
        rw [h] at hbytes
        exact (Except.ok.inj hbytes).symm
      subst heq
      rfl
  · next stored hstored =>
      rw [h] at hstored
      cases hstored

theorem readIn6Addr_of_error {text stored : Bytes} (h : inet6Addr text = .error stored) :
    readIn6Addr text = none := by
  rw [readIn6Addr]
  split
  · next bytes hbytes =>
      rw [h] at hbytes
      cases hbytes
  · rfl

theorem parseAddr_of_inet6Addr {text : Bytes} {addr : In6Addr} (h : inetAddr text = inaddrNone)
    (h6 : inet6Addr text = .ok addr.bytes) : parseAddr text = some (.inet6 addr 0) := by
  rw [parseAddr, if_neg (not_not.mpr h), readIn6Addr_of_ok h6]

theorem parseAddr_of_error {text stored : Bytes} (h : inetAddr text = inaddrNone)
    (h6 : inet6Addr text = .error stored) : parseAddr text = none := by
  rw [parseAddr, if_neg (not_not.mpr h), readIn6Addr_of_error h6]

/-- Text that starts as a dotted number is no IPv6 address. -/
theorem inet6Addr_decimal_dot (v : UInt8) (rest : Bytes) :
    inet6Addr (decimal v.toNat ++ 46 :: rest) = .error [] := by
  have hv := v.toNat_lt
  obtain ⟨nibbles, word, hne, hgroup⟩ :=
    @inet6Loop_decimal [] none none 8 v
  obtain ⟨ds, htext, hds, -, hpos, -⟩ :=
    exists_digits_decimal (n := v.toNat) (k := 2) (by omega) (by decide)
  have hfirst : ∀ rest, inet6Addr (decimal v.toNat ++ rest) =
      inet6Rest .init (decimal v.toNat ++ rest) := by
    intro rest
    cases ds with
    | nil => simp at hpos
    | cons d ds =>
        have hall : ∀ d : Fin 10, digitChar .no d ≠ 58 := by decide
        have hne := hall ⟨d, hds d List.mem_cons_self⟩
        simp only [htext, List.map_cons, List.cons_append, inet6Addr, if_neg hne]
  have hdot : inet6Loop (atGroup [] none none 8) (decimal v.toNat ++ 46 :: rest) = .error [] := by
    rw [hgroup, inet6Loop, if_neg (by decide), if_pos ⟨rfl, hne⟩]
  rw [hfirst, inet6Rest]
  rw [show inet6Loop .init (decimal v.toNat ++ 46 :: rest) = .error [] from hdot]

theorem text_signed (n : Nat) (hn : n < 2 ^ 32) : (Item.signed 32 0 n).text = decimal n := by
  have hpos : ¬ (n : Int) < 0 := by omega
  simp [Item.text, hpos, decimal]

theorem length_decimal_le {n k : Nat} (hn : n < 10 ^ (k + 1)) (hk : k < 9) :
    (decimal n).length ≤ k + 1 := by
  obtain ⟨ds, htext, -, -, -, hle⟩ := exists_digits_decimal hn hk
  simpa [htext] using hle

theorem length_dotted_le (p : Nat → UInt8) : (sprintf (dotted p)).length ≤ 15 := by
  have hdecimal : ∀ v : UInt8, (decimal v.toNat).length ≤ 3 := by
    intro v
    have hv := v.toNat_lt
    exact length_decimal_le (by omega) (by decide)
  have h0 := hdecimal (p 0)
  have h1 := hdecimal (p 1)
  have h2 := hdecimal (p 2)
  have h3 := hdecimal (p 3)
  simp only [sprintf_dotted, List.length_append, List.length_cons]
  omega

theorem length_hexadecimal_le {w : Nat} (hw : w < 2 ^ 16) : (hexadecimal w).length ≤ 4 := by
  obtain ⟨ds, htext, -, -, -, hle⟩ := exists_digits_hexadecimal hw
  simpa [htext] using hle

theorem length_ntopLoop_le (p : Bytes) (run : ZeroRun) (n rounds i : Nat) :
    (ntopLoop p run n rounds i).length ≤ 5 * rounds := by
  induction rounds generalizing i with
  | zero => simp [ntopLoop]
  | succ rounds ih =>
      rw [ntopLoop]
      split
      · split
        · have := ih (i + (run.max - 1) * 2 + 2)
          simp only [List.length_cons]
          omega
        · have hgroup := length_hexadecimal_le (wordAt_lt p i)
          have hrest := ih (i + 2)
          have hcolon : (if i < 14 then [58] else [] : Bytes).length ≤ 1 := by
            split <;> simp
          simp only [List.length_append]
          omega
      · simp

/-- `ngx_inet6_ntop` asks for `NGX_INET6_ADDRSTRLEN` bytes and then writes without
looking at the end of the buffer: it never needs more. -/
theorem length_inet6Text_le (p : Bytes) : (inet6Text p).length ≤ inet6Addrstrlen := by
  rw [inet6Addrstrlen]
  by_cases hdotted : endsDotted p (zeroRun p)
  · obtain ⟨k, hk, -, -, htext⟩ := inet6Text_of_dotted hdotted
    have hquad := length_dotted_le (tailQuad p)
    have hgroups : (groups (wordsFrom p 10 k)).length ≤ 5 := by
      have hgroup := length_hexadecimal_le (wordAt_lt p 10)
      rcases (show k = 0 ∨ k = 1 by omega) with rfl | rfl
      · simp [wordsFrom, groups]
      · simp only [wordsFrom, groups, List.flatMap_cons, List.flatMap_nil, List.length_append,
          List.length_cons, List.length_nil]
        omega
    rw [htext]
    simp only [List.length_cons, List.length_append]
    omega
  · have hloop := length_ntopLoop_le p (zeroRun p) 16 8 0
    have hcolon : (if (zeroRun p).zero = some 0 then [58] else [] : Bytes).length ≤ 1 := by
      split <;> simp
    have hend : ¬ (16 = 12) := by decide
    simp only [inet6Text, if_neg hdotted, if_neg hend, List.length_append, List.length_nil]
    omega

/-- Whatever a text is, reading it stores no byte past the sixteen of an address and
fills them when it is accepted; and whatever sixteen bytes are, their text fits. -/
theorem inet6Addr_inet6Text_fit (text p : Bytes) :
    Fills (inet6Addr text) ∧ (inet6Text p).length ≤ inet6Addrstrlen :=
  ⟨fills_inet6Addr text, length_inet6Text_le p⟩

theorem inetNtop_inet (addr : BitVec 32) (port : BitVec 16) {len : Nat} (hlen : 15 ≤ len) :
    inetNtop (.inet addr port) len = sprintf (dotted (octet addr)) := by
  have hle := length_dotted_le (octet addr)
  rw [inetNtop, snprintf_eq_take, List.take_of_length_le (by omega)]

theorem inetNtop_inet6 (addr : In6Addr) (port : BitVec 16) {len : Nat} (hlen : 45 ≤ len) :
    inetNtop (.inet6 addr port) len = inet6Text addr.bytes := by
  have hroom : ¬ len < inet6Addrstrlen := by
    rw [inet6Addrstrlen]
    omega
  rw [inetNtop, inet6Ntop, if_neg hroom]

/-- What an address is read back as, without its port. -/
def Sockaddr.Readable : Sockaddr → Prop
  | .inet addr _ => addr ≠ inaddrNone
  | .inet6 addr _ => ¬ addr.EndsInNone
  | .unix _ => False

theorem parseAddr_inetNtop {sa : Sockaddr} (hsa : sa.Readable) {len : Nat} (hlen : 45 ≤ len) :
    parseAddr (inetNtop sa len) = some (sa.setPort 0) := by
  cases sa with
  | inet addr port =>
      have haddr : inetAddr (sprintf (dotted (octet addr))) = addr := by
        rw [inetAddr_dotted, quad_octet]
      rw [inetNtop_inet _ _ (by omega), parseAddr_of_inetAddr (by rwa [haddr]), haddr]
      rfl
  | inet6 addr port =>
      rw [inetNtop_inet6 _ _ hlen, parseAddr_of_inet6Addr (inetAddr_of_colon
        (colon_mem_inet6Text addr.bytes)) (inet6Addr_inet6Text addr hsa)]
      rfl
  | unix path => exact hsa.elim

theorem parseAddr_inetNtop_of_not {sa : Sockaddr} (hsa : ¬ sa.Readable) {len : Nat}
    (hlen : 45 ≤ len) : parseAddr (inetNtop sa len) = none := by
  cases sa with
  | inet addr port =>
      have haddr : addr = inaddrNone := not_not.mp hsa
      rw [inetNtop_inet _ _ (by omega), haddr]
      have hnone : inetAddr (sprintf (dotted (octet inaddrNone))) = inaddrNone := by
        rw [inetAddr_dotted, quad_octet]
      have hfirst : inet6Addr (sprintf (dotted (octet inaddrNone))) = .error [] := by
        rw [sprintf_dotted]
        exact inet6Addr_decimal_dot _ _
      exact parseAddr_of_error hnone hfirst
  | inet6 addr port =>
      obtain ⟨stored, hstored⟩ := inet6Addr_of_endsInNone (not_not.mp hsa)
      rw [inetNtop_inet6 _ _ hlen]
      exact parseAddr_of_error (inetAddr_of_colon (colon_mem_inet6Text addr.bytes)) hstored
  | unix path => rfl

def Sockaddr.port : Sockaddr → BitVec 16
  | .inet _ port => port
  | .inet6 _ port => port
  | .unix _ => 0

theorem splitPort_colon {text : Bytes} (hcolon : (58 : UInt8) ∉ text)
    (hbracket : text.head? ≠ some 91) (hne : text ≠ []) (line : Bytes) :
    splitPort (text ++ 58 :: line) = some (text, line) := by
  have hhead : (text ++ 58 :: line).head? ≠ some 91 := by
    cases text with
    | nil => exact absurd rfl hne
    | cons c text => simpa using hbracket
  have hat : strlchr (text ++ 58 :: line) 58 = some text.length := strlchr_append_cons hcolon line
  have htake : (text ++ 58 :: line).length - ((text ++ 58 :: line).length - (text.length + 1) + 1) =
      text.length := by
    simp only [List.length_append, List.length_cons]
    omega
  rw [splitPort, if_neg hhead, hat]
  simp only [htake]
  simp

theorem splitPort_bracket {text : Bytes} (hbracket : (93 : UInt8) ∉ text) (line : Bytes) :
    splitPort (91 :: text ++ 93 :: 58 :: line) = some (text, line) := by
  have hat : strlchr (91 :: text ++ 93 :: 58 :: line) 93 = some (text.length + 1) := by
    have hmem : (93 : UInt8) ∉ 91 :: text := by
      simpa using hbracket
    exact strlchr_append_cons hmem (58 :: line)
  have htake : (91 :: text ++ 93 :: 58 :: line).length - 2 -
      ((91 :: text ++ 93 :: 58 :: line).length - (text.length + 1 + 2) + 1) = text.length := by
    simp only [List.length_append, List.length_cons]
    omega
  rw [splitPort, if_pos (by simp), hat]
  simp only [htake]
  simp

theorem parseAddrPort_of_split {text addr : Bytes} {port : BitVec 16}
    (hwhole : parseAddr text = none) (hsplit : splitPort text = some (addr, decimal port.toNat)) :
    parseAddrPort text =
      if port = 0 then none else (parseAddr addr).map (Sockaddr.setPort port.toNat) := by
  have hlt := port.isLt
  have hport : atoi (decimal port.toNat) = some port.toNat := atoi_decimal (by omega)
  rw [parseAddrPort, hwhole]
  simp only [hsplit, hport]
  by_cases hzero : port = 0
  · simp [hzero]
  · have hpos : port.toNat ≠ 0 := fun h => hzero (BitVec.eq_of_toNat_eq h)
    rw [if_neg hzero, if_neg (by omega)]

/-- The text with a port is split where it was put together. -/
theorem parseAddrPort_sockNtop_eq {sa : Sockaddr} (hsa : ∀ path, sa ≠ .unix path) {len : Nat}
    (hlen : 45 ≤ len) :
    parseAddrPort (sockNtop sa len true) =
      if sa.port = 0 then none
      else (parseAddr (inetNtop sa len)).map (Sockaddr.setPort sa.port.toNat) := by
  cases sa with
  | inet addr port =>
      have hle := length_dotted_le (octet addr)
      have hlt : port.toNat < 2 ^ 16 := port.isLt
      have hple := length_decimal_le (n := port.toNat) (k := 4) (by omega) (by decide)
      have htext : sockNtop (.inet addr port) len true =
          sprintf (dotted (octet addr)) ++ 58 :: decimal port.toNat := by
        have hsprintf : sprintf (dotted (octet addr) ++ [.char 58, .signed 32 0 port.toNat]) =
            sprintf (dotted (octet addr)) ++ 58 :: decimal port.toNat := by
          rw [← text_signed port.toNat (by omega)]
          simp [sprintf, Item.text]
        rw [sockNtop, if_pos rfl, snprintf_eq_take, hsprintf, List.take_of_length_le]
        simp only [List.length_append, List.length_cons]
        omega
      have hwhole : parseAddr (sprintf (dotted (octet addr)) ++ 58 :: decimal port.toNat) = none := by
        refine @parseAddr_of_error _ [] (inetAddr_of_colon (by simp)) ?_
        rw [sprintf_dotted, List.append_assoc]
        exact inet6Addr_decimal_dot _ _
      have hsplit : splitPort (sprintf (dotted (octet addr)) ++ 58 :: decimal port.toNat) =
          some (sprintf (dotted (octet addr)), decimal port.toNat) := by
        refine splitPort_colon (colon_notMem_dotted _) ?_ ?_ _
        · intro hhead
          have hmem := List.mem_of_mem_head? (Option.mem_def.mpr hhead)
          exact (addrChar_dotted _ _ hmem).ne.1 rfl
        · simp [sprintf_dotted]
      rw [htext, inetNtop_inet _ _ (by omega)]
      exact parseAddrPort_of_split hwhole hsplit
  | inet6 addr port =>
      have hlt : port.toNat < 2 ^ 16 := port.isLt
      have htext : sockNtop (.inet6 addr port) len true =
          91 :: inet6Text addr.bytes ++ 93 :: 58 :: decimal port.toNat := by
        have hroom := inetNtop_inet6 addr port hlen
        rw [inetNtop] at hroom
        rw [sockNtop, if_pos rfl, hroom, ← text_signed port.toNat (by omega)]
        simp [sprintf, Item.text]
      have hwhole : parseAddr (91 :: inet6Text addr.bytes ++ 93 :: 58 :: decimal port.toNat) =
          none := by
        refine @parseAddr_of_error _ [] (inetAddr_of_colon (by simp)) ?_
        rfl
      have hsplit := @splitPort_bracket (inet6Text addr.bytes)
        (fun hmem => (addrChar_inet6Text _ _ hmem).ne.2 rfl) (decimal port.toNat)
      rw [htext, inetNtop_inet6 _ _ hlen]
      exact parseAddrPort_of_split hwhole hsplit
  | unix path => exact absurd rfl (hsa path)

theorem parseAddr_ne_unix (text path : Bytes) : parseAddr text ≠ some (.unix path) := by
  rw [parseAddr]
  split
  · simp
  · split <;> simp

theorem parseAddrPort_ne_unix (text path : Bytes) : parseAddrPort text ≠ some (.unix path) := by
  have hmap : ∀ (addr : Bytes) (port : Nat),
      (parseAddr addr).map (Sockaddr.setPort port) ≠ some (.unix path) := by
    intro addr port h
    obtain ⟨sa, hsa, hset⟩ := Option.map_eq_some_iff.mp h
    cases sa with
    | inet addr port => cases hset
    | inet6 addr port => cases hset
    | unix path' => exact parseAddr_ne_unix addr path' hsa
  rw [parseAddrPort]
  split
  · next sa hsa =>
      intro h
      exact parseAddr_ne_unix text path (hsa.trans h)
  · split
    · simp
    · split
      · simp
      · split
        · simp
        · exact hmap _ _

theorem Sockaddr.setPort_setPort_port {sa : Sockaddr} :
    (sa.setPort 0).setPort sa.port.toNat = sa := by
  cases sa <;> simp [Sockaddr.setPort, Sockaddr.port]

/-- A socket address is read back from its text exactly when it has a port and the
text does not end in the one dotted address the reader takes for an error. -/
theorem parseAddrPort_sockNtop (sa : Sockaddr) (len : Nat) (hlen : 45 ≤ len) :
    parseAddrPort (sockNtop sa len true) = some sa ↔ sa.port ≠ 0 ∧ sa.Readable := by
  by_cases hunix : ∃ path, sa = .unix path
  · obtain ⟨path, rfl⟩ := hunix
    simp [parseAddrPort_ne_unix, Sockaddr.Readable]
  · rw [parseAddrPort_sockNtop_eq (fun path h => hunix ⟨path, h⟩) hlen]
    by_cases hport : sa.port = 0
    · simp [hport]
    · rw [if_neg hport]
      by_cases hread : sa.Readable
      · rw [parseAddr_inetNtop hread hlen, Option.map_some, Sockaddr.setPort_setPort_port]
        exact ⟨fun _ => ⟨hport, hread⟩, fun _ => rfl⟩
      · rw [parseAddr_inetNtop_of_not hread hlen]
        simp [hread]

/-- The loopback address with port 80, in a buffer of the size that the callers pass. -/
theorem parseAddrPort_sockNtop_loopback :
    parseAddrPort (sockNtop (.inet 0x7f000001#32 80) sockaddrStrlen true) =
      some (.inet 0x7f000001#32 80) :=
  (parseAddrPort_sockNtop (.inet 0x7f000001#32 80) sockaddrStrlen (by decide)).mpr
    ⟨by decide, by simp only [Sockaddr.Readable]; decide⟩

end Nginx
