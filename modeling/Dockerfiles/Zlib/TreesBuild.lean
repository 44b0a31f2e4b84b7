import Dockerfiles.Zlib.TreesStream

/-! # Building trees

`build_tree` of `trees.c`: a heap of the elements that occur, the two least frequent of
which are put under a new node until one is left, and then the lengths, which are cut off
at the longest one allowed and evened out again. `heap` and the nodes that were taken from
it share an array in the source; they are two lists here.
-/

namespace Trees

open Puff (entry)

structure StaticDesc where
  staticTree : Option Tree
  extraBits : List Nat
  extraBase : Nat
  elems : Nat
  maxLength : Nat

def staticLDesc : StaticDesc where
  staticTree := some staticLtree
  extraBits := extraLbits
  extraBase := 257
  elems := 286
  maxLength := maxBits

def staticDDesc : StaticDesc where
  staticTree := some staticDtree
  extraBits := extraDbits
  extraBase := 0
  elems := 30
  maxLength := maxBits

def staticBlDesc : StaticDesc where
  staticTree := none
  extraBits := extraBlbits
  extraBase := 0
  elems := 19
  maxLength := 7

structure Sizes where
  optLen : BitVec 64
  staticLen : BitVec 64

/-! ## The heap -/

/-- `heap[k]`; the first entry of the list is `heap[1]`. -/
def heapAt (heap : List Nat) (k : Nat) : Nat := entry heap (k - 1)

def heapSet (heap : List Nat) (k v : Nat) : List Nat := heap.set (k - 1) v

def smaller (tree : Tree) (depth : List Nat) (n m : Nat) : Bool :=
  decide (entry tree.fc n < entry tree.fc m ∨
    (entry tree.fc n = entry tree.fc m ∧ entry depth n ≤ entry depth m))

section Heap

variable (tree : Tree) (depth : List Nat)

/-- The smaller one of the two sons of `heap[k]`. -/
def smallerSon (heap : List Nat) (k : Nat) : Nat :=
  let j := k <<< 1
  if j < heap.length ∧ smaller tree depth (heapAt heap (j + 1)) (heapAt heap j) then j + 1 else j

/-- The loop of `pqdownheap`; `k` grows in each round. -/
def pqdownLoop (v : Nat) : Nat → Nat → List Nat → List Nat
  | 0, k, heap => heapSet heap k v
  | rounds + 1, k, heap =>
      if k <<< 1 ≤ heap.length then
        let j := smallerSon tree depth heap k
        if smaller tree depth v (heapAt heap j) then heapSet heap k v
        else pqdownLoop v rounds j (heapSet heap k (heapAt heap j))
      else heapSet heap k v

def pqdownheap (k : Nat) (heap : List Nat) : List Nat :=
  pqdownLoop tree depth (heapAt heap k) heap.length k heap

/-- What `pqremove` leaves of the heap. -/
def pqremove (heap : List Nat) : List Nat :=
  pqdownheap tree depth 1 (heapSet heap 1 (heapAt heap heap.length)).dropLast

/-- Sub-heaps are established from `heap[n]` down to `heap[1]`. -/
def establish : Nat → List Nat → List Nat
  | 0, heap => heap
  | n + 1, heap => establish n (pqdownheap tree depth (n + 1) heap)

end Heap

/-! ## The tree -/

/-- The variables of `build_tree`. `sorted` is the array from `heap[heap_max]` on, and
`codes` is `max_code + 1`. -/
structure Building where
  heap : List Nat
  sorted : List Nat
  depth : List Nat
  tree : Tree
  codes : Nat
  sizes : Sizes

def addElem (b : Building) (n : Nat) : Building :=
  if entry b.tree.fc n ≠ 0 then
    { b with
      heap := b.heap ++ [n]
      depth := b.depth.set n 0
      codes := n + 1 }
  else { b with tree := { b.tree with dl := b.tree.dl.set n 0 } }

/-- One round of the loop that forces two codes. -/
def forceElem (desc : StaticDesc) (b : Building) : Building :=
  if b.heap.length < 2 then
    let node := if b.codes < 3 then b.codes else 0
    { b with
      heap := b.heap ++ [node]
      depth := b.depth.set node 0
      tree := { b.tree with fc := b.tree.fc.set node 1 }
      codes := if b.codes < 3 then b.codes + 1 else b.codes
      sizes :=
        { optLen := b.sizes.optLen - 1
          staticLen :=
            match desc.staticTree with
            | some stree => b.sizes.staticLen - BitVec.ofNat 64 (entry stree.dl node)
            | none => b.sizes.staticLen } }
  else b

/-- The two least frequent nodes get a father. -/
def mergeStep (node : Nat) (b : Building) : Building :=
  let n := heapAt b.heap 1
  let heap := pqremove b.tree b.depth b.heap
  let m := heapAt heap 1
  let tree : Tree :=
    { fc := b.tree.fc.set node ((entry b.tree.fc n + entry b.tree.fc m) % 2 ^ 16)
      dl := (b.tree.dl.set m node).set n node }
  let depth := b.depth.set node ((max (entry b.depth n) (entry b.depth m) + 1) % 2 ^ 8)
  { b with
    heap := pqdownheap tree depth 1 (heapSet heap 1 node)
    sorted := m :: n :: b.sorted
    depth
    tree }

/-- The loop that combines nodes; the heap gets shorter in each round. -/
def mergeLoop : Nat → Nat → Building → Building
  | 0, _, b => b
  | rounds + 1, node, b =>
      if 2 ≤ b.heap.length then mergeLoop rounds (node + 1) (mergeStep node b) else b

def startHeap (desc : StaticDesc) (tree : Tree) (sizes : Sizes) : Building :=
  let b := (List.range desc.elems).foldl addElem
    { heap := [], sorted := [], depth := List.replicate 573 0, tree, codes := 0, sizes }
  let b := forceElem desc (forceElem desc b)
  { b with heap := establish b.tree b.depth (b.heap.length / 2) b.heap }

def combined (desc : StaticDesc) (tree : Tree) (sizes : Sizes) : Building :=
  let b := startHeap desc tree sizes
  let b := mergeLoop b.heap.length desc.elems b
  { b with sorted := heapAt b.heap 1 :: b.sorted }

/-! ## The lengths -/

structure Pass where
  dl : List Nat
  blCount : List Nat
  overflow : Nat
  sizes : Sizes

section Lengths

variable (desc : StaticDesc) (fc : List Nat) (codes : Nat)

def firstPass (p : Pass) (n : Nat) : Pass :=
  let bits := entry p.dl (entry p.dl n) + 1
  let overflow := if bits > desc.maxLength then p.overflow + 1 else p.overflow
  let bits := min bits desc.maxLength
  let p := { p with dl := p.dl.set n bits, overflow }
  if n ≥ codes then p
  else
    let xbits := if n ≥ desc.extraBase then entry desc.extraBits (n - desc.extraBase) else 0
    let f := entry fc n
    { p with
      blCount := p.blCount.modify bits (· + 1)
      sizes :=
        { optLen := p.sizes.optLen + BitVec.ofNat 64 (f * (bits + xbits))
          staticLen :=
            match desc.staticTree with
            | some stree => p.sizes.staticLen + BitVec.ofNat 64 (f * (entry stree.dl n + xbits))
            | none => p.sizes.staticLen } }

def lastUsed (blCount : List Nat) : Nat → Nat
  | 0 => 0
  | bits + 1 => if entry blCount (bits + 1) = 0 then lastUsed blCount bits else bits + 1

/-- One leaf is moved down the tree, and one overflow item as its brother. -/
def moveDown (blCount : List Nat) : List Nat :=
  let bits := lastUsed blCount (desc.maxLength - 1)
  ((blCount.modify bits (· - 1)).modify (bits + 1) (· + 2)).modify desc.maxLength (· - 1)

def moveAll : Nat → List Nat → List Nat
  | 0, blCount => blCount
  | 1, blCount => moveDown desc blCount
  | overflow + 2, blCount => moveAll overflow (moveDown desc blCount)

def setLength (bits : Nat) (p : Pass) (m : Nat) : Pass :=
  if entry p.dl m ≠ bits then
    { p with
      dl := p.dl.set m bits
      sizes :=
        { p.sizes with
          optLen := p.sizes.optLen +
            BitVec.ofInt 64 (((bits : Int) - (entry p.dl m : Int)) * (entry fc m : Int)) } }
  else p

/-- The next `n` elements, of the nodes that were not looked at yet, get the length. -/
def assignLoop (bits : Nat) : Nat → List Nat → Pass → List Nat × Pass
  | 0, rest, p => (rest, p)
  | _ + 1, [], p => ([], p)
  | n + 1, m :: rest, p =>
      if m ≥ codes then assignLoop bits (n + 1) rest p
      else assignLoop bits n rest (setLength fc bits p m)

/-- All lengths are computed again, the longest ones first. -/
def secondPass (blCount : List Nat) : Nat → List Nat → Pass → Pass
  | 0, _, p => p
  | bits + 1, rest, p =>
      let (rest, p) := assignLoop fc codes (bits + 1) (entry blCount (bits + 1)) rest p
      secondPass blCount bits rest p

def genBitlen (b : Building) : Pass :=
  let p := (b.sorted.drop 1).foldl (firstPass desc b.tree.fc b.codes)
    { dl := b.tree.dl.set (entry b.sorted 0) 0
      blCount := List.replicate (maxBits + 1) 0
      overflow := 0
      sizes := b.sizes }
  if p.overflow = 0 then p
  else
    let blCount := moveAll desc p.overflow p.blCount
    secondPass b.tree.fc b.codes blCount desc.maxLength b.sorted.reverse { p with blCount }

end Lengths

/-- What `build_tree` leaves: the tree, `max_code + 1`, and the sizes. -/
structure Built where
  tree : Tree
  codes : Nat
  sizes : Sizes

def buildTree (desc : StaticDesc) (tree : Tree) (sizes : Sizes) : Built :=
  let b := combined desc tree sizes
  let p := genBitlen desc b
  { tree := genCodes { fc := b.tree.fc, dl := p.dl } (b.codes - 1) p.blCount
    codes := b.codes
    sizes := p.sizes }

end Trees
