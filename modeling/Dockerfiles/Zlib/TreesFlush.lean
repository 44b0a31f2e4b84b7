import Dockerfiles.Zlib.TreesComplete

/-! # Flushing blocks

`_tr_tally`, which counts what occurs, and `_tr_flush_block`, which builds the trees from
these counts, chooses the kind of block and sends it.
-/

namespace Trees

open Zlib (Bytef)
open Puff (entry)

/-! ## The state -/

/-- What the functions use of a `deflate_state`. `pending_buf` has those bytes of `out` that
have not been flushed; `tallied` is what `_tr_tally` has entered in `d_buf` and `l_buf`, up
to `last_lit`. The two arrays lie in `pending_buf`, from `litBufsize` on. -/
structure DeflateState where
  out : Out
  flushed : Nat
  litBufsize : Nat
  dynLtree : Tree
  dynDtree : Tree
  blTree : Tree
  sizes : Sizes
  tallied : List Tally

def Tree.clear (tree : Tree) (elems : Nat) : Tree :=
  { tree with fc := List.replicate elems 0 ++ tree.fc.drop elems }

def initBlock (s : DeflateState) : DeflateState :=
  let dynLtree := s.dynLtree.clear 286
  { s with
    dynLtree := { dynLtree with fc := dynLtree.fc.set 256 1 }
    dynDtree := s.dynDtree.clear 30
    blTree := s.blTree.clear 19
    sizes := { optLen := 0, staticLen := 0 }
    tallied := [] }

def emptyTree (n : Nat) : Tree where
  fc := List.replicate n 0
  dl := List.replicate n 0

def initState (memLevel : Nat) : DeflateState :=
  initBlock
    { out := trInit
      flushed := 0
      litBufsize := 1 <<< (memLevel + 6)
      dynLtree := emptyTree 573
      dynDtree := emptyTree 61
      blTree := emptyTree 39
      sizes := { optLen := 0, staticLen := 0 }
      tallied := [] }

/-! ## The overlay -/

/-- The entry `lx` of `d_buf` and `l_buf` is written; what is pending there is lost. -/
def enter (flushed litBufsize lx : Nat) (t : Tally) (s : Out) : Out :=
  let write := fun i v (pending : List Bytef) => pending.set (flushed + i) (BitVec.ofNat 8 v)
  { s with
    pending := write (3 * litBufsize + lx) t.lc (write (litBufsize + 2 * lx + 1) (t.dist / 2 ^ 8)
      (write (litBufsize + 2 * lx) t.dist s.pending)) }

/-- The byte `i` of `pending_buf`: the one that is pending, or else what was there. -/
def overlaid (flushed i old : Nat) (s : Out) : Nat :=
  match s.pending[flushed + i]? with
  | some b => b.toNat
  | none => old

/-- The entry `lx` of `d_buf` and `l_buf` is read; the words are kept with the low byte
first. -/
def readTally (flushed litBufsize lx : Nat) (t : Tally) (s : Out) : Tally where
  dist := overlaid flushed (litBufsize + 2 * lx) (t.dist % 2 ^ 8) s +
    2 ^ 8 * overlaid flushed (litBufsize + 2 * lx + 1) (t.dist / 2 ^ 8) s
  lc := overlaid flushed (3 * litBufsize + lx) t.lc s

/-- The loop of `compress_block` over the entries from `lx` on. -/
def compressLoop (flushed litBufsize : Nat) (ltree dtree : Tree) : Nat → List Tally → Out → Out
  | _, [], s => s
  | lx, t :: tallied, s =>
      compressLoop flushed litBufsize ltree dtree (lx + 1) tallied
        (compressTally ltree dtree s (readTally flushed litBufsize lx t s))

def compressBlock (flushed litBufsize : Nat) (tallied : List Tally) (ltree dtree : Tree) (s : Out) :
    Out :=
  sendCode 256 ltree (compressLoop flushed litBufsize ltree dtree 0 tallied s)

/-- A block is sent, as `_tr_flush_block` does for the kind that it chose. -/
def sendBlock (flushed litBufsize : Nat) (last : Bool) : Block → Out → Out
  | .stored buf, s => trStoredBlock buf last s
  | .static tallied, s =>
      compressBlock flushed litBufsize tallied staticLtree staticDtree (sendHeader 1 last s)
  | .dynamic tallied ltree dtree blTree lcodes dcodes blcodes, s =>
      compressBlock flushed litBufsize tallied ltree dtree
        (sendAllTrees ltree dtree blTree lcodes dcodes blcodes (sendHeader 2 last s))
  | .align, s => trAlign s

/-! ## Tallying and flushing -/

/-- `_tr_tally`, up to what it returns. -/
def trTally (s : DeflateState) (t : Tally) : DeflateState :=
  let entered : Tally := { dist := t.dist % 2 ^ 16, lc := t.lc % 2 ^ 8 }
  let s :=
    { s with
      out := enter s.flushed s.litBufsize s.tallied.length entered s.out
      tallied := s.tallied ++ [entered] }
  if t.dist = 0 then { s with dynLtree := s.dynLtree.addFreq t.lc 1 }
  else
    { s with
      dynLtree := s.dynLtree.addFreq (entry lengthCode t.lc + 256 + 1) 1
      dynDtree := s.dynDtree.addFreq (dCode (t.dist - 1)) 1 }

/-- The loop of `build_bl_tree`, from `max_blindex` down. -/
def maxBlindex (dl : List Nat) : Nat → Nat
  | 0 => 0
  | k + 1 => if 3 ≤ k + 1 ∧ entry dl (entry blOrder (k + 1)) = 0 then maxBlindex dl k else k + 1

/-- The trees of a block, how many codes of each are sent, and the sizes. -/
structure Prepared where
  ltree : Built
  dtree : Built
  blTree : Built
  blcodes : Nat
  sizes : Sizes

/-- The trees are built; the last one is that of `build_bl_tree`. -/
def prepare (s : DeflateState) : Prepared :=
  let ltree := buildTree staticLDesc s.dynLtree s.sizes
  let dtree := buildTree staticDDesc s.dynDtree ltree.sizes
  let scanned := scanTree (dtree.tree.dl.take dtree.codes)
    (scanTree (ltree.tree.dl.take ltree.codes) s.blTree)
  let blTree := buildTree staticBlDesc scanned dtree.sizes
  let blcodes := maxBlindex blTree.tree.dl 18 + 1
  { ltree
    dtree
    blTree
    blcodes
    sizes :=
      { blTree.sizes with
        optLen := blTree.sizes.optLen + BitVec.ofNat 64 (3 * blcodes + 5 + 5 + 4) } }

/-- A size in bytes, with the header of the block. -/
def lenb (size : BitVec 64) : BitVec 64 := (size + 3 + 7) >>> 3

/-- The kind of block that is smallest; `buf` is the input from the start of the block on,
or none when it is too old. -/
def chooseBlock (fixed : Bool) (s : DeflateState) (buf : Option (List Bytef)) (storedLen : Nat)
    (optLenb staticLenb : BitVec 64) (dynamic : Block) : Block :=
  match buf with
  | some buf =>
      if storedLen + 4 ≤ optLenb.toNat then .stored (buf.take storedLen)
      else if fixed ∨ staticLenb = optLenb then .static s.tallied
      else dynamic
  | none => if fixed ∨ staticLenb = optLenb then .static s.tallied else dynamic

/-- The block that `_tr_flush_block` sends, with `level` and whether `strategy` is
`Z_FIXED`, and the state once the trees are built. -/
def blockToSend (level : Nat) (fixed : Bool) (buf : Option (List Bytef)) (storedLen : Nat)
    (s : DeflateState) : Block × DeflateState :=
  if level > 0 then
    let p := prepare s
    let staticLenb := lenb p.sizes.staticLen
    let optLenb := if staticLenb ≤ lenb p.sizes.optLen then staticLenb else lenb p.sizes.optLen
    let dynamic := Block.dynamic s.tallied p.ltree.tree p.dtree.tree p.blTree.tree p.ltree.codes
      p.dtree.codes p.blcodes
    (chooseBlock fixed s buf storedLen optLenb staticLenb dynamic,
      { s with dynLtree := p.ltree.tree, dynDtree := p.dtree.tree, blTree := p.blTree.tree })
  else
    -- a stored block is forced; the sizes are equal, so that no dynamic one is chosen
    let storedLenb := BitVec.ofNat 64 (storedLen + 5)
    (chooseBlock fixed s buf storedLen storedLenb storedLenb (.static s.tallied), s)

def finishBlock (block : Block) (last : Bool) (s : DeflateState) : DeflateState :=
  let s := initBlock { s with out := sendBlock s.flushed s.litBufsize last block s.out }
  if last then { s with out := biWindup s.out } else s

def trFlushBlock (level : Nat) (fixed : Bool) (buf : Option (List Bytef)) (storedLen : Nat)
    (last : Bool) (s : DeflateState) : DeflateState :=
  let chosen := blockToSend level fixed buf storedLen s
  finishBlock chosen.1 last chosen.2

end Trees
