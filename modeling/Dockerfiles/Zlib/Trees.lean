import Dockerfiles.Zlib.Puff

/-! # Trees

`trees.c` of zlib, the side that writes: bits, codes, the static tables, and the blocks of
the three kinds. A tree is kept as the source keeps it, in two words for each element: one
is the frequency and then the code, the other the father and then the length.
-/

namespace Trees

open Zlib (Bytef)
open Puff (entry)

/-! ## Bits -/

/-- The output of a `deflate_state`: the bytes that were put, and `bi_buf` and `bi_valid`. -/
structure Out where
  pending : List Bytef
  biBuf : Nat
  biValid : Nat
deriving DecidableEq, Repr

def putByte (c : Nat) (s : Out) : Out := { s with pending := s.pending ++ [BitVec.ofNat 8 c] }

def putShort (w : Nat) (s : Out) : Out := putByte ((w % 2 ^ 16) >>> 8) (putByte (w &&& 0xff) s)

def bufSize : Nat := 16

def sendBits (value length : Nat) (s : Out) : Out :=
  let biBuf := (s.biBuf ||| ((value % 2 ^ 16) <<< s.biValid)) % 2 ^ 16
  if s.biValid > bufSize - length then
    { putShort biBuf s with
      biBuf := (value % 2 ^ 16) >>> (bufSize - s.biValid)
      biValid := s.biValid + length - bufSize }
  else { s with biBuf, biValid := s.biValid + length }

def biFlush (s : Out) : Out :=
  if s.biValid = 16 then { putShort s.biBuf s with biBuf := 0, biValid := 0 }
  else if s.biValid ≥ 8 then
    { putByte s.biBuf s with biBuf := s.biBuf >>> 8, biValid := s.biValid - 8 }
  else s

def biWindup (s : Out) : Out :=
  let s :=
    if s.biValid > 8 then putShort s.biBuf s
    else if s.biValid > 0 then putByte s.biBuf s
    else s
  { s with biBuf := 0, biValid := 0 }

def biReverseLoop : Nat → Nat → Nat → Nat
  | 0, _, res => res
  | len + 1, code, res => biReverseLoop len (code >>> 1) ((res ||| (code &&& 1)) <<< 1)

def biReverse (code len : Nat) : Nat := biReverseLoop (max len 1) code 0 >>> 1

/-! ## Codes -/

/-- An array of `ct_data`: `fc` is `Freq` or `Code`, `dl` is `Dad` or `Len`. -/
structure Tree where
  fc : List Nat
  dl : List Nat
deriving DecidableEq, Repr

def sendCode (c : Nat) (tree : Tree) (s : Out) : Out :=
  sendBits (entry tree.fc c) (entry tree.dl c) s

def maxBits : Nat := 15

/-- `next_code`: the loop of `gen_codes` over lengths from `bits` on, with `k` to go. -/
def nextCodes (blCount : List Nat) : Nat → Nat → Nat → List Nat
  | 0, _, _ => []
  | k + 1, bits, code =>
      let code := ((code + entry blCount (bits - 1)) <<< 1) % 2 ^ 16
      code :: nextCodes blCount k (bits + 1) code

def genCodesLoop : Nat → Nat → List Nat → Tree → Tree
  | 0, _, _, tree => tree
  | k + 1, n, nextCode, tree =>
      let len := entry tree.dl n
      if len = 0 then genCodesLoop k (n + 1) nextCode tree
      else
        genCodesLoop k (n + 1) (nextCode.modify len fun code => (code + 1) % 2 ^ 16)
          { tree with fc := tree.fc.set n (biReverse (entry nextCode len) len) }

/-- `gen_codes`. The first entry of `next_code` is not used. -/
def genCodes (tree : Tree) (maxCode : Nat) (blCount : List Nat) : Tree :=
  genCodesLoop (maxCode + 1) 0 (0 :: nextCodes blCount maxBits 1 0) tree

/-! ## The static tables -/

def extraLbits : List Nat :=
  [0, 0, 0, 0, 0, 0, 0, 0, 1, 1, 1, 1, 2, 2, 2, 2, 3, 3, 3, 3, 4, 4, 4, 4, 5, 5, 5, 5, 0]

def extraDbits : List Nat :=
  [0, 0, 0, 0, 1, 1, 2, 2, 3, 3, 4, 4, 5, 5, 6, 6, 7, 7, 8, 8, 9, 9, 10, 10, 11, 11, 12, 12, 13, 13]

def extraBlbits : List Nat := [0, 0, 0, 0, 0, 0, 0, 0, 0, 0, 0, 0, 0, 0, 0, 0, 2, 3, 7]

def blOrder : List Nat := [16, 17, 18, 0, 8, 7, 9, 6, 10, 5, 11, 4, 12, 3, 13, 2, 14, 1, 15]

/-- A loop of `tr_static_init` over codes from `code` on: each code stands for as many
values as its extra bits can tell apart, and its base is the first of them. -/
def initCodes : List Nat → Nat → List Nat → List Nat → List Nat × List Nat
  | [], _, base, codes => (base, codes)
  | extra :: rest, code, base, codes =>
      initCodes rest (code + 1) (base ++ [codes.length])
        (codes ++ List.replicate (1 <<< extra) code)

/-- `base_length`; the last entry is not set. -/
def baseLength : List Nat := (initCodes (extraLbits.take 28) 0 [] []).1 ++ [0]

/-- `_length_code`; the last length has a code of its own. -/
def lengthCode : List Nat := (initCodes (extraLbits.take 28) 0 [] []).2.set 255 28

/-- The codes of distances below 256. -/
def nearCodes : List Nat × List Nat := initCodes (extraDbits.take 16) 0 [] []

/-- The codes of the others, whose distances are divided by 128; the first two entries are
not set. -/
def farCodes : List Nat × List Nat :=
  initCodes ((extraDbits.drop 16).map (· - 7)) 16 [] [0, 0]

def baseDist : List Nat := nearCodes.1 ++ farCodes.1.map (· <<< 7)

def distCode : List Nat := nearCodes.2 ++ farCodes.2

def dCode (dist : Nat) : Nat :=
  if dist < 256 then entry distCode dist else entry distCode (256 + (dist >>> 7))

def staticLengths : List Nat :=
  List.replicate 144 8 ++ List.replicate 112 9 ++ List.replicate 24 7 ++ List.replicate 8 8

/-- `static_ltree`; its `bl_count` counts the lengths. -/
def staticLtree : Tree :=
  genCodes { fc := List.replicate 288 0, dl := staticLengths } 287
    [0, 0, 0, 0, 0, 0, 0, 24, 152, 112, 0, 0, 0, 0, 0, 0]

def staticDtree : Tree where
  fc := (List.range 30).map fun n => biReverse n 5
  dl := List.replicate 30 5

/-! ## Blocks -/

/-- An entry of `d_buf` and `l_buf`: a byte when `dist` is zero, else the length of a
match, less `MIN_MATCH`. -/
structure Tally where
  dist : Nat
  lc : Nat
deriving DecidableEq, Repr

def sendExtra (value extra : Nat) (s : Out) : Out :=
  if extra ≠ 0 then sendBits value extra s else s

/-- One round of the loop of `compress_block`. -/
def compressTally (ltree dtree : Tree) (s : Out) (t : Tally) : Out :=
  if t.dist = 0 then sendCode t.lc ltree s
  else
    let code := entry lengthCode t.lc
    let s := sendCode (code + 256 + 1) ltree s
    let s := sendExtra (t.lc - entry baseLength code) (entry extraLbits code) s
    let dist := t.dist - 1
    let code := dCode dist
    let s := sendCode code dtree s
    sendExtra (dist - entry baseDist code) (entry extraDbits code) s

/-- What `compress_block` sends where it reads what was tallied. -/
def sendTallied (tallied : List Tally) (ltree dtree : Tree) (s : Out) : Out :=
  sendCode 256 ltree (tallied.foldl (compressTally ltree dtree) s)

/-- `copy_block` with a header. -/
def copyBlock (buf : List Bytef) (s : Out) : Out :=
  let s := biWindup s
  let s := putShort (buf.length % 2 ^ 16) s
  let s := putShort ((2 ^ 32 - 1 - buf.length % 2 ^ 32) % 2 ^ 16) s
  buf.foldl (fun s b => putByte b.toNat s) s

def sendHeader (type : Nat) (last : Bool) (s : Out) : Out :=
  sendBits ((type <<< 1) + last.toNat) 3 s

def trStoredBlock (buf : List Bytef) (last : Bool) (s : Out) : Out :=
  copyBlock buf (sendHeader 0 last s)

def trAlign (s : Out) : Out := biFlush (sendCode 256 staticLtree (sendHeader 1 false s))

/-! ## The trees of a block -/

section TreeLoop

variable {σ : Type}

/-- The loop that `scan_tree` and `send_tree` have in common, over the lengths from here
on; `emit` is told of each run: the length before it, its length, how long it is and how
long runs have to be to be sent as such. -/
def treeLoop (emit : Option Nat → Nat → Nat → Nat → σ → σ) :
    List Nat → Option Nat → Nat → Nat → Nat → σ → σ
  | [], _, _, _, _, s => s
  | curlen :: rest, prevlen, count, maxCount, minCount, s =>
      -- the guard behind the last length is no length
      let nextlen := rest.headD 0xffff
      let count := count + 1
      if count < maxCount ∧ curlen = nextlen then
        treeLoop emit rest prevlen count maxCount minCount s
      else
        let s := emit prevlen curlen count minCount s
        if nextlen = 0 then treeLoop emit rest (some curlen) 0 138 3 s
        else if curlen = nextlen then treeLoop emit rest (some curlen) 0 6 3 s
        else treeLoop emit rest (some curlen) 0 7 4 s

def treeRuns (emit : Option Nat → Nat → Nat → Nat → σ → σ) (lens : List Nat) (s : σ) : σ :=
  if lens.headD 0xffff = 0 then treeLoop emit lens none 0 138 3 s
  else treeLoop emit lens none 0 7 4 s

end TreeLoop

def sendRun (blTree : Tree) (prevlen : Option Nat) (curlen count minCount : Nat) (s : Out) : Out :=
  if count < minCount then Nat.iterate (sendCode curlen blTree) count s
  else if curlen ≠ 0 then
    if prevlen ≠ some curlen then
      sendBits (count - 1 - 3) 2 (sendCode 16 blTree (sendCode curlen blTree s))
    else sendBits (count - 3) 2 (sendCode 16 blTree s)
  else if count ≤ 10 then sendBits (count - 3) 3 (sendCode 17 blTree s)
  else sendBits (count - 11) 7 (sendCode 18 blTree s)

/-- `send_tree`, of the lengths up to `max_code`. -/
def sendTree (blTree : Tree) (lens : List Nat) (s : Out) : Out := treeRuns (sendRun blTree) lens s

def Tree.addFreq (tree : Tree) (n count : Nat) : Tree :=
  { tree with fc := tree.fc.modify n fun freq => (freq + count) % 2 ^ 16 }

def scanRun (prevlen : Option Nat) (curlen count minCount : Nat) (blTree : Tree) : Tree :=
  if count < minCount then blTree.addFreq curlen count
  else if curlen ≠ 0 then
    if prevlen ≠ some curlen then (blTree.addFreq curlen 1).addFreq 16 1
    else blTree.addFreq 16 1
  else if count ≤ 10 then blTree.addFreq 17 1
  else blTree.addFreq 18 1

/-- `scan_tree`, of the lengths up to `max_code`. -/
def scanTree (lens : List Nat) (blTree : Tree) : Tree := treeRuns scanRun lens blTree

def sendAllTrees (ltree dtree blTree : Tree) (lcodes dcodes blcodes : Nat) (s : Out) : Out :=
  let s := sendBits (lcodes - 257) 5 s
  let s := sendBits (dcodes - 1) 5 s
  let s := sendBits (blcodes - 4) 4 s
  let s := (blOrder.take blcodes).foldl (fun s n => sendBits (entry blTree.dl n) 3 s) s
  let s := sendTree blTree (ltree.dl.take lcodes) s
  sendTree blTree (dtree.dl.take dcodes) s

end Trees
