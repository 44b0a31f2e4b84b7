import Dockerfiles.Bits.Stream
import Dockerfiles.Zlib.Crc32

/-! # Puff

`contrib/puff/puff.c` of zlib, which is there to say what the deflate format is: the
reader of bits, the canonical Huffman codes, the three kinds of blocks and the loop over
blocks. A `return` of an error code and the
`longjmp` at the end of the input are both a failure with that code; loops that the
source leaves only at the end of a block are given as many rounds as there are bits.
-/

namespace Puff

open Zlib (Bytef)

/-- `struct state`: what was written to `out`, the `outlen` of it (none when `out` is
`NIL`), the bytes of `in` that were not read yet, and the bits kept of the last one. -/
structure State where
  out : List Bytef
  room : Option Nat
  outcnt : Nat
  input : List Bytef
  incnt : Nat
  bitbuf : Nat
  bitcnt : Nat
deriving DecidableEq, Repr

/-- A function on `struct state` that may fail with an error code. -/
abbrev Reader := EStateM Int State

/-! ## Bits -/

/-- The loop of `bits`: bytes are put above `val` until it has `need` bits. -/
def load (need : Nat) (input : List Bytef) (incnt val bitcnt : Nat) :
    Option (List Bytef × Nat × Nat × Nat) :=
  if bitcnt < need then
    match input with
    | [] => none
    | b :: input => load need input (incnt + 1) (val ||| (b.toNat <<< bitcnt)) (bitcnt + 8)
  else some (input, incnt, val, bitcnt)
termination_by structural input

def bits (need : Nat) : Reader Nat := fun s =>
  match load need s.input s.incnt s.bitbuf s.bitcnt with
  | none => .error 2 s
  | some (input, incnt, val, bitcnt) =>
      .ok (val &&& ((1 <<< need) - 1))
        { s with input, incnt, bitbuf := val >>> need, bitcnt := bitcnt - need }

/-! ## Huffman codes -/

def maxbits : Nat := 15

structure Huffman where
  count : List Nat
  symbol : List Nat
deriving DecidableEq, Repr

def entry (a : List Nat) (i : Nat) : Nat := a.getD i 0

/-- The loop of `decode` as it is with `SLOW`, with `k` lengths left. -/
def decodeLoop (h : Huffman) : Nat → Nat → Nat → Nat → Nat → Reader Nat
  | 0, _, _, _, _ => throw (-10)
  | k + 1, len, code, first, index => do
      let code := code ||| (← bits 1)
      let count := entry h.count len
      if (code : Int) - count < first then
        return entry h.symbol (index + (code - first))
      else
        decodeLoop h k (len + 1) (code <<< 1) ((first + count) <<< 1) (index + count)

def decodeSlow (h : Huffman) : Reader Nat := decodeLoop h maxbits 1 0 0 0

/-- The variables of `decode` without `SLOW`. -/
structure Scan where
  code : Nat
  first : Nat
  index : Nat
  len : Nat
  bitbuf : Nat

/-- What the inner loop of `decode` ends with. -/
inductive Scanned where
  | found (symbol : Nat) (len bitbuf : Nat)
  | more (scan : Scan)

/-- `while (left--)` in `decode`. -/
def scanBits (h : Huffman) : Nat → Scan → Scanned
  | 0, s => .more s
  | left + 1, s =>
      let code := s.code ||| (s.bitbuf &&& 1)
      let bitbuf := s.bitbuf >>> 1
      let count := entry h.count s.len
      if (code : Int) - count < s.first then
        .found (entry h.symbol (s.index + (code - s.first))) s.len bitbuf
      else
        scanBits h left
          { code := code <<< 1, first := (s.first + count) <<< 1, index := s.index + count,
            len := s.len + 1, bitbuf }

/-- `while (1)` in `decode`, with `left` bits of `bitbuf` to look at. The bits that are
left of the last byte are those that `s` had and the bytes had, less `len`. -/
def scanBytes (h : Huffman) (s : State) (input : List Bytef) (incnt left : Nat) (scan : Scan) :
    EStateM.Result Int State Nat :=
  match scanBits h left scan with
  | .found symbol len bitbuf =>
      .ok symbol { s with input, incnt, bitbuf, bitcnt := (((s.bitcnt : Int) - len) % 8).toNat }
  | .more scan =>
      if maxbits + 1 - scan.len = 0 then .error (-10) { s with input, incnt }
      else
        match input with
        | [] => .error 2 { s with input := [], incnt }
        | b :: input =>
            scanBytes h s input (incnt + 1) (min (maxbits + 1 - scan.len) 8)
              { scan with bitbuf := b.toNat }
termination_by structural input

def decodeFast (h : Huffman) : Reader Nat := fun s =>
  scanBytes h s s.input s.incnt s.bitcnt
    { code := 0, first := 0, index := 0, len := 1, bitbuf := s.bitbuf }

/-- `decode`, with `SLOW` or without. -/
def decode (slow : Bool) (h : Huffman) : Reader Nat := if slow then decodeSlow h else decodeFast h

def countLengths (length : List Nat) : List Nat :=
  length.foldl (fun count l => count.modify l (· + 1)) (List.replicate (maxbits + 1) 0)

def leftLoop (count : List Nat) : Nat → Nat → Int → Int
  | 0, _, left => left
  | k + 1, len, left =>
      let left := left * 2 - entry count len
      if left < 0 then left else leftLoop count k (len + 1) left

/-- `offs[len]`. -/
def offset (count : List Nat) : Nat → Nat
  | 0 => 0
  | 1 => 0
  | len + 2 => offset count (len + 1) + entry count (len + 1)

/-- The last loop of `construct`, from `symbol` on. -/
def sortSymbols : List Nat → Nat → List Nat → List Nat → List Nat
  | [], _, _, table => table
  | l :: length, symbol, offs, table =>
      if l ≠ 0 then
        sortSymbols length (symbol + 1) (offs.modify l (· + 1)) (table.set (entry offs l) symbol)
      else sortSymbols length (symbol + 1) offs table

def construct (length : List Nat) : Huffman × Int :=
  let count := countLengths length
  let table := List.replicate length.length 0
  if entry count 0 = length.length then ({ count, symbol := table }, 0)
  else
    let left := leftLoop count maxbits 1 1
    if left < 0 then ({ count, symbol := table }, left)
    else
      let offs := (List.range (maxbits + 1)).map (offset count)
      ({ count, symbol := sortSymbols length 0 offs table }, left)

/-! ## Blocks -/

def align : Reader Unit := fun s => .ok () { s with bitbuf := 0, bitcnt := 0 }

/-- The length of a stored block, which is checked against its complement. -/
def storedLength : Reader Nat := fun s =>
  match s.input with
  | b0 :: b1 :: b2 :: b3 :: input =>
      let len := b0.toNat ||| (b1.toNat <<< 8)
      let complement := 2 ^ 32 - 1 - len
      -- the fourth byte is read only when the third is right
      if b2.toNat ≠ complement &&& 0xff then
        .error (-2) { s with input := b3 :: input, incnt := s.incnt + 3 }
      else if b3.toNat ≠ (complement >>> 8) &&& 0xff then
        .error (-2) { s with input, incnt := s.incnt + 4 }
      else .ok len { s with input, incnt := s.incnt + 4 }
  | _ => .error 2 s

/-- `len` bytes more go to `out`, which then is `bytes out`; they are only counted when
`out` is `NIL`. -/
def put (len : Nat) (bytes : List Bytef → List Bytef) : Reader Unit := fun s =>
  match s.room with
  | some outlen =>
      if outlen < s.outcnt + len then .error 1 s
      else .ok () { s with out := bytes s.out, outcnt := s.outcnt + len }
  | none => .ok () { s with outcnt := s.outcnt + len }

def skip (len : Nat) : Reader Unit := fun s =>
  .ok () { s with input := s.input.drop len, incnt := s.incnt + len }

def store (len : Nat) : Reader Unit := fun s =>
  if s.input.length < len then .error 2 s
  else (put len (· ++ s.input.take len) >>= fun _ => skip len) s

def stored : Reader Unit := do
  align
  let len ← storedLength
  store len

def lens : List Nat :=
  [3, 4, 5, 6, 7, 8, 9, 10, 11, 13, 15, 17, 19, 23, 27, 31, 35, 43, 51, 59, 67, 83, 99, 115, 131,
    163, 195, 227, 258]

def lext : List Nat :=
  [0, 0, 0, 0, 0, 0, 0, 0, 1, 1, 1, 1, 2, 2, 2, 2, 3, 3, 3, 3, 4, 4, 4, 4, 5, 5, 5, 5, 0]

def dists : List Nat :=
  [1, 2, 3, 4, 5, 7, 9, 13, 17, 25, 33, 49, 65, 97, 129, 193, 257, 385, 513, 769, 1025, 1537, 2049,
    3073, 4097, 6145, 8193, 12289, 16385, 24577]

def dext : List Nat :=
  [0, 0, 0, 0, 1, 1, 2, 2, 3, 3, 4, 4, 5, 5, 6, 6, 7, 7, 8, 8, 9, 9, 10, 10, 11, 11, 12, 12, 13, 13]

def literal (symbol : Nat) : Reader Unit := fun s =>
  match s.room with
  | some outlen =>
      if s.outcnt = outlen then .error 1 s
      else .ok () { s with out := s.out ++ [BitVec.ofNat 8 symbol], outcnt := s.outcnt + 1 }
  | none => .ok () { s with outcnt := s.outcnt + 1 }

/-- `while (len--)`: each byte is copied from `dist` bytes back, one after the other. -/
def copyLoop (dist : Nat) : Nat → List Bytef → List Bytef
  | 0, out => out
  | len + 1, out => copyLoop dist len (out ++ [out.getD (out.length - dist) 0])

def copy (len dist : Nat) : Reader Unit := fun s =>
  if s.outcnt < dist then .error (-11) s
  else put len (copyLoop dist len) s

section Codes

variable (slow : Bool)

/-- A length and a distance: `symbol` is the one of the length, less 257. -/
def lengthPair (distcode : Huffman) (symbol : Nat) : Reader Unit :=
  if symbol ≥ 29 then throw (-10)
  else do
    let extra ← bits (entry lext symbol)
    let code ← decode slow distcode
    let more ← bits (entry dext code)
    copy (entry lens symbol + extra) (entry dists code + more)

/-- One round of the loop of `codes`, and whether another one follows. -/
def codesRound (lencode distcode : Huffman) : Reader Bool := do
  let symbol ← decode slow lencode
  if symbol < 256 then do
    literal symbol
    return true
  else if symbol > 256 then do
    lengthPair slow distcode (symbol - 257)
    return true
  else return false

def codesLoop (lencode distcode : Huffman) : Nat → Reader Unit
  | 0 => throw 3
  | k + 1 => do
      if ← codesRound slow lencode distcode then codesLoop lencode distcode k

def State.left (s : State) : Nat := s.bitcnt + 8 * s.input.length

def codes (lencode distcode : Huffman) : Reader Unit := fun s =>
  codesLoop slow lencode distcode (s.left + 1) s

def fixedLengths : List Nat :=
  List.replicate 144 8 ++ List.replicate 112 9 ++ List.replicate 24 7 ++ List.replicate 8 8

def fixed : Reader Unit :=
  codes slow (construct fixedLengths).1 (construct (List.replicate 30 5)).1

def order : List Nat := [16, 17, 18, 0, 8, 7, 9, 6, 10, 5, 11, 4, 12, 3, 13, 2, 14, 1, 15]

/-- The code length code lengths, put where `order` says. -/
def readOrder : Nat → List Nat → List Nat → Reader (List Nat)
  | ncode + 1, i :: order, lengths => do
      let l ← bits 3
      readOrder ncode order (lengths.set i l)
  | _, _, lengths => return lengths

/-- `len` is put `times` times behind the lengths, `times` from `base` on and by `need`
bits. -/
def repeated (total : Nat) (lengths : List Nat) (len base need : Nat) : Reader (List Nat) := do
  let extra ← bits need
  if lengths.length + (base + extra) > total then throw (-6)
  else return lengths ++ List.replicate (base + extra) len

/-- What a symbol of the code length code adds to the lengths. -/
def addLengths (total : Nat) (lengths : List Nat) (symbol : Nat) : Reader (List Nat) :=
  if symbol < 16 then return lengths ++ [symbol]
  else if symbol = 16 then
    if lengths = [] then throw (-5) else repeated total lengths (lengths.getLastD 0) 3 2
  else if symbol = 17 then repeated total lengths 0 3 3
  else repeated total lengths 0 11 7

def readLengths (h : Huffman) (total : Nat) : Nat → List Nat → Reader (List Nat)
  | 0, _ => throw 3
  | k + 1, lengths =>
      if lengths.length < total then do
        let symbol ← decode slow h
        let lengths ← addLengths total lengths symbol
        readLengths h total k lengths
      else return lengths

/-- An incomplete code is good only if it is a single code of one bit. -/
def usable (length : List Nat) : Bool :=
  decide ((construct length).2 = 0 ∨ (0 ≤ (construct length).2 ∧
    length.length = entry (construct length).1.count 0 + entry (construct length).1.count 1))

/-- The end of `dynamic`, when all lengths are read. -/
def dynamicCodes (nlen : Nat) (lengths : List Nat) : Reader Unit :=
  if entry lengths 256 = 0 then throw (-9)
  else if ¬ usable (lengths.take nlen) then throw (-7)
  else if ¬ usable (lengths.drop nlen) then throw (-8)
  else codes slow (construct (lengths.take nlen)).1 (construct (lengths.drop nlen)).1

def dynamic : Reader Unit := do
  let nlen ← bits 5
  let ndist ← bits 5
  let ncode ← bits 4
  if nlen + 257 > 286 ∨ ndist + 1 > 30 then throw (-3)
  else do
    let lengths ← readOrder (ncode + 4) order (List.replicate 19 0)
    if (construct lengths).2 ≠ 0 then throw (-4)
    else do
      let total := nlen + 257 + (ndist + 1)
      let lengths ← readLengths slow (construct lengths).1 total (total + 1) []
      dynamicCodes slow (nlen + 257) lengths

/-! ## The whole -/

def blockOf (type : Nat) : Reader Unit :=
  if type = 0 then stored
  else if type = 1 then fixed slow
  else if type = 2 then dynamic slow
  else throw (-1)

def blockLoop : Nat → Reader Unit
  | 0 => throw 3
  | k + 1 => do
      let last ← bits 1
      let type ← bits 2
      blockOf slow type
      if last ≠ 0 then return () else blockLoop k

end Codes

/-- What `puff` returns and leaves: the bytes written, and `destlen` and `sourcelen` when
they are changed. -/
structure Result where
  err : Int
  out : List Bytef
  lengths : Option (Nat × Nat)
deriving DecidableEq, Repr

/-- The state `puff` starts from; `dest` is the room for the output, or none when the
output is only counted. -/
def start (dest : Option Nat) (source : List Bytef) : State where
  out := []
  room := dest
  outcnt := 0
  input := source
  incnt := 0
  bitbuf := 0
  bitcnt := 0

def inflate (slow : Bool) (dest : Option Nat) (source : List Bytef) :
    EStateM.Result Int State Unit :=
  blockLoop slow ((start dest source).left + 1) (start dest source)

def finish : EStateM.Result Int State Unit → Result
  | .ok () s => { err := 0, out := s.out, lengths := some (s.outcnt, s.incnt) }
  | .error err s =>
      { err, out := s.out, lengths := if err ≤ 0 then some (s.outcnt, s.incnt) else none }

def puff (slow : Bool) (dest : Option Nat) (source : List Bytef) : Result :=
  finish (inflate slow dest source)

end Puff
