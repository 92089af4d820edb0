import Usax.Common.Utils

/-!
# The buddy allocator of `kmalloc.c`

A heap of `2 ^ S` bytes with minimum block size `2 ^ m` is a binary tree of blocks. Its metadata is one
`struct block_node` for each block, in an array laid out as a binary heap. The functions below are the source's, in the
order in which they call each other; `none` is a run that the C code does not survive: an access beyond the end of the
metadata array, or a failed `VERIFY`. The one access in front of the array that the code makes, `nodes[-1]` when the
whole heap is freed, is modelled (`nodeBefore`). The `ASSERT`s are compiled out of a release build and are not part of
the functions.

`internal_kmalloc` simulates a recursion on the heap's own stack (`norec.h`); here it is that recursion (`search`), with
the number of free stack slots as its bound.
-/

namespace Usax.Kmalloc

open Common

/-! ## Data model -/

structure BlockNode where
  split : Bool
  full : Bool
  allocated : Bool
  allocFailed : Bool
deriving DecidableEq, Repr

/-- `s_new_node`: just zeros. -/
def newNode : BlockNode := ⟨false, false, false, false⟩

/-- `raw = FL_NODE_FULL`. -/
def fullNode : BlockNode := ⟨false, true, false, false⟩

/-- `raw = FL_NODE_SPLIT | FL_NODE_FULL`. -/
def splitFullNode : BlockNode := ⟨true, true, false, false⟩

/-- `raw &= ~(FL_NODE_SPLIT | FL_NODE_FULL)`. -/
def BlockNode.clear (b : BlockNode) : BlockNode := { b with split := false, full := false }

def isBlockNodeFree (b : BlockNode) : Bool := !(b.full || b.split)

/-- A call of one of the heap's two callbacks. -/
inductive VmEvent where
  | map (vaddr pageCount : Nat)
  | unmap (vaddr pageCount : Nat)
deriving DecidableEq, Repr

/-- `struct kmalloc_heap`. The callback `valloc_and_map` is given by what each of its calls returns, and the calls made
so far are kept in order, latest first; `nodeBefore` is the byte in front of the metadata array. -/
structure KmallocHeap where
  vaddr : Nat
  size : Nat
  memAllocated : Nat
  metadataNodes : Nat → BlockNode
  nodeBefore : BlockNode
  minBlockSize : Nat
  allocBlockSize : Nat
  vallocAndMap : Nat → Bool
  vallocCalls : Nat
  vmEvents : List VmEvent
  heapDataSizeLog2 : Nat
  allocBlockSizeLog2 : Nat
  metadataSize : Nat
  heapLastByte : Nat
  linearMapping : Bool

def allocStackSize : Nat := 32

/-- `KMALLOC_FL_MULTI_STEP` and `KFREE_FL_MULTI_STEP`. -/
def flMultiStep : Nat := 0x80000000

/-- `KMALLOC_FL_NO_ACTUAL_ALLOC` and `KFREE_FL_NO_ACTUAL_FREE`. -/
def flNoActual : Nat := 0x40000000

def flSubBlockMinSizeMask : Nat := 0x07ffffff

def flAllowSplit : Nat := 0x20000000

/-- `!!(flags & fl)`. -/
def hasFlag (flags fl : Nat) : Bool := decide (flags &&& fl ≠ 0)

/-! ## The metadata array -/

namespace KmallocHeap

def node? (h : KmallocHeap) (n : Nat) : Option BlockNode :=
  if n < h.metadataSize then some (h.metadataNodes n) else none

def setNode (h : KmallocHeap) (n : Nat) (b : BlockNode) : Option KmallocHeap :=
  if n < h.metadataSize then some { h with metadataNodes := Function.update h.metadataNodes n b } else none

/-- A read of `nodes[n]` and a write that depends on it. -/
def modifyNode (h : KmallocHeap) (n : Nat) (f : BlockNode → BlockNode) : Option KmallocHeap := do
  h.setNode n (f (← h.node? n))

/-- A loop over the `count` nodes from `n` on, or a `memset` or `bzero` of them when `f` is constant. -/
def mapRow (h : KmallocHeap) (n count : Nat) (f : BlockNode → BlockNode) : Option KmallocHeap :=
  if n + count ≤ h.metadataSize then
    some { h with metadataNodes := fun i =>
      if n ≤ i ∧ i < n + count then f (h.metadataNodes i) else h.metadataNodes i }
  else none

end KmallocHeap

def nodeLeft (n : Nat) : Nat := 2 * n + 1

def nodeRight (n : Nat) : Nat := 2 * n + 2

/-- `NODE_PARENT`: the root has none, its `NODE_PARENT` is `-1`. -/
def nodeParent (n : Nat) : Option Nat := if n = 0 then none else some ((n - 1) / 2)

section

variable [Machine]

def ptrToNode (h : KmallocHeap) (ptr size : Nat) : Nat :=
  let sizeLog := log2ForPowerOf2 size
  let offset := ptr - h.vaddr
  let nodesBeforeOur := 2 ^ (h.heapDataSizeLog2 - sizeLog) - 1
  let positionInRow := offset >>> sizeLog
  nodesBeforeOur + positionInRow

def nodeToPtr (h : KmallocHeap) (node size : Nat) : Nat :=
  let sizeLog := log2ForPowerOf2 size
  let nodesBeforeOur := 2 ^ (h.heapDataSizeLog2 - sizeLog) - 1
  let positionInRow := node - nodesBeforeOur
  let offset := positionInRow <<< sizeLog
  offset + h.vaddr

/-! ## Freeing -/

/-- The last loop of `set_free_uplevels`: from `n` up to the root, nothing is full. The bound is one iteration for each
level. -/
def clearFullLoop : Nat → KmallocHeap → Option Nat → Option KmallocHeap
  | _, h, none => some h
  | 0, _, some _ => none
  | fuel + 1, h, some n => do
    let h ← h.modifyNode n (fun b => { b with full := false })
    clearFullLoop fuel h (nodeParent n)

/-- The first loop of `set_free_uplevels`: coalesce `n` as long as both of its children are free. It returns the heap,
the last coalesced node, the index at which the loop was left and the current size. -/
def coalesceLoop : Nat → KmallocHeap → (node n currSize : Nat) → Option (KmallocHeap × Nat × Nat × Nat)
  | 0, _, _, _, _ => none
  | fuel + 1, h, node, n, currSize => do
    let b ← h.node? n
    if isBlockNodeFree b then
      return (h, node, n, currSize)
    let left ← h.node? (nodeLeft n)
    let right ← h.node? (nodeRight n)
    if !isBlockNodeFree left || !isBlockNodeFree right then
      let h ← h.modifyNode n (fun b => { b with full := left.full && right.full })
      return (h, node, n, currSize >>> 1)
    let h ← h.modifyNode n BlockNode.clear
    match nodeParent n with
    | none => return (h, n, n, currSize)
    | some p => coalesceLoop fuel h n p (currSize <<< 1)

/-- `set_free_uplevels`: the heap, the last coalesced node and `curr_size`. The parent of the root is `-1`: for it the
source looks at `nodes[-1]`, and takes `nodes[-1]` and `nodes[0]` for its children. -/
def setFreeUplevels (h : KmallocHeap) (node size : Nat) : Option (KmallocHeap × Nat × Nat) := do
  let h ← h.modifyNode node (fun b => { b with full := false })
  match nodeParent node with
  | none =>
    if isBlockNodeFree h.nodeBefore then
      return (h, node, size <<< 1)
    let right ← h.node? 0
    let h := { h with nodeBefore := { h.nodeBefore with full := h.nodeBefore.full && right.full } }
    return (h, node, size <<< 1 >>> 1)
  | some p =>
    let (h, biggest, n, currSize) ← coalesceLoop (h.heapDataSizeLog2 + 1) h node p (size <<< 1)
    let h ← clearFullLoop (h.heapDataSizeLog2 + 1) h (some n)
    return (h, biggest, currSize)

/-- The number of nodes in a row that are neither split nor full. -/
def countFree (h : KmallocHeap) (n count : Nat) : Nat :=
  (List.range count).countP (fun j => isBlockNodeFree (h.metadataNodes (n + j)))

/-- The loop of `internal_kmalloc_coalesce_block`, with `already_free_size` as its result. -/
def coalesceRows : Nat → KmallocHeap → (s n nodeCount alreadyFreeSize : Nat) → Option (KmallocHeap × Nat)
  | 0, _, _, _, _, _ => none
  | fuel + 1, h, s, n, nodeCount, alreadyFreeSize =>
    if s < h.minBlockSize then
      some (h, alreadyFreeSize)
    else if s > h.minBlockSize then do
      let h ← h.mapRow n nodeCount (if s ≠ h.allocBlockSize then fun _ => newNode else BlockNode.clear)
      coalesceRows fuel h (s >>> 1) (nodeLeft n) (nodeCount <<< 1) alreadyFreeSize
    else do
      let free := countFree h n nodeCount * s
      let h ← h.mapRow n nodeCount BlockNode.clear
      coalesceRows fuel h (s >>> 1) (nodeLeft n) (nodeCount <<< 1) (alreadyFreeSize + free)

def internalKmallocCoalesceBlock (h : KmallocHeap) (vaddr blockSize : Nat) : Option (KmallocHeap × Nat) := do
  let blockNodeNum := ptrToNode h vaddr blockSize
  let (h, alreadyFreeSize) ← coalesceRows (h.heapDataSizeLog2 + 2) h blockSize blockNodeNum 1 0
  let h ← h.modifyNode blockNodeNum (fun b => { b with full := true })
  return (h, alreadyFreeSize)

/-- The loop of `internal_kfree` over the allocation blocks of a block that is now free. -/
def freeAllocBlocks : Nat → KmallocHeap → (allocBlockVaddr : Nat) → Option KmallocHeap
  | 0, h, _ => some h
  | count + 1, h, va => do
    let allocNode := ptrToNode h va h.allocBlockSize
    let b ← h.node? allocNode
    let h ←
      if b.allocated then
        KmallocHeap.setNode
          { h with vmEvents := .unmap va (h.allocBlockSize / pageSize) :: h.vmEvents } allocNode newNode
      else if b.allocFailed then
        h.setNode allocNode { b with allocFailed := false }
      else
        some h
    freeAllocBlocks count h (va + h.allocBlockSize)

def internalKfree (h : KmallocHeap) (ptr size : Nat) (allowSplit doActualFree : Bool) : Option KmallocHeap := do
  let node := ptrToNode h ptr size
  let b ← h.node? node
  let (h, freeSizeCorrection) ←
    if allowSplit && b.split then internalKmallocCoalesceBlock h ptr size else some (h, 0)
  let h := { h with memAllocated := subWord h.memAllocated (size - freeSizeCorrection) }
  let (h, _, biggestFreeSize) ← setFreeUplevels h node size
  if biggestFreeSize < h.allocBlockSize then
    return h
  if h.linearMapping || !doActualFree then
    return h
  let allocBlockVaddr := ptr / h.allocBlockSize * h.allocBlockSize
  let allocBlockCount := 1 + ((size - 1) >>> h.allocBlockSizeLog2)
  freeAllocBlocks allocBlockCount h allocBlockVaddr

/-- `calculate_block_size`: the walk from the root, at node `n` with data at `va`. -/
def blockSizeLoop : Nat → KmallocHeap → (vaddr n va size : Nat) → Option Nat
  | 0, _, _, _, _, _ => none
  | fuel + 1, h, vaddr, n, va, size =>
    if size > h.minBlockSize then do
      let b ← h.node? n
      if !b.split then
        return size
      let size := size >>> 1
      if vaddr ≥ va + size then
        blockSizeLoop fuel h vaddr (nodeRight n) (va + size) size
      else
        blockSizeLoop fuel h vaddr (nodeLeft n) va size
    else
      some size

def calculateBlockSize (h : KmallocHeap) (vaddr : Nat) : Option Nat :=
  blockSizeLoop (h.heapDataSizeLog2 + 1) h vaddr 0 h.vaddr h.size

/-- The loop of `per_heap_kfree_unsafe` for a multi-step free, at bit `i - 1`. -/
def multiFreeLoop : Nat → KmallocHeap → (ptr size tot : Nat) → (allowSplit doActualFree : Bool) → Option KmallocHeap
  | 0, h, _, _, _, _, _ => some h
  | i + 1, h, ptr, size, tot, allowSplit, doActualFree =>
    if tot < size then
      if size.testBit i then do
        let h ← internalKfree h (ptr + tot) (2 ^ i) allowSplit doActualFree
        multiFreeLoop i h ptr size (tot + 2 ^ i) allowSplit doActualFree
      else
        multiFreeLoop i h ptr size tot allowSplit doActualFree
    else
      some h

/-- `per_heap_kfree_unsafe`: the heap and the value left in `*user_size`. -/
def perHeapKfreeUnsafe (h : KmallocHeap) (ptr userSize flags : Nat) : Option (KmallocHeap × Nat) := do
  let allowSplit := hasFlag flags flAllowSplit
  let multiStepFree := hasFlag flags flMultiStep
  let doActualFree := !hasFlag flags flNoActual
  if !multiStepFree then
    let size ←
      if userSize ≠ 0 then some (roundupNextPowerOf2 (max userSize h.minBlockSize)) else calculateBlockSize h ptr
    let h ← internalKfree h ptr size allowSplit doActualFree
    return (h, size)
  let h ← multiFreeLoop h.heapDataSizeLog2 h ptr userSize 0 allowSplit doActualFree
  return (h, userSize)

/-! ## Allocating -/

/-- The loop of `actual_allocate_node` over the allocation blocks of a node, with `alloc_failed` as its result. -/
def allocateBlocks : Nat → KmallocHeap → (nodeSize allocBlockVaddr : Nat) → Bool → Option (KmallocHeap × Bool)
  | 0, h, _, _, allocFailed => some (h, allocFailed)
  | count + 1, h, nodeSize, va, allocFailed => do
    let allocNode := ptrToNode h va h.allocBlockSize
    let b ← h.node? allocNode
    let (h, allocFailed) ←
      if !b.allocated then
        let success := h.vallocAndMap h.vallocCalls
        let h := { h with vallocCalls := h.vallocCalls + 1 }
        if success then do
          let h := { h with vmEvents := .map va (h.allocBlockSize / pageSize) :: h.vmEvents }
          let h ← h.setNode allocNode { b with allocated := true }
          some (h, allocFailed)
        else do
          let h ← h.setNode allocNode { b with allocFailed := true }
          some (h, true)
      else
        some (h, allocFailed)
    let h ←
      if nodeSize ≥ h.allocBlockSize then h.modifyNode allocNode (fun b => { b with full := true }) else some h
    allocateBlocks count h nodeSize (va + h.allocBlockSize) allocFailed

/-- `actual_allocate_node`: the heap, whether it succeeded, and the address of the node. -/
def actualAllocateNode (h : KmallocHeap) (nodeSize node : Nat) (doActualAlloc : Bool) :
    Option (KmallocHeap × Bool × Nat) := do
  let h ← h.modifyNode node (fun b => { b with full := true })
  let vaddr := nodeToPtr h node nodeSize
  if h.linearMapping || !doActualAlloc then
    return (h, true, vaddr)
  let allocBlockVaddr := vaddr / h.allocBlockSize * h.allocBlockSize
  let allocBlockCount := 1 + ((nodeSize - 1) >>> h.allocBlockSizeLog2)
  let (h, allocFailed) ← allocateBlocks allocBlockCount h nodeSize allocBlockVaddr false
  return (h, !allocFailed, vaddr)

def nodeSizeLoop : Nat → (cn size : Nat) → Option Nat
  | 0, _, _ => none
  | fuel + 1, cn, size =>
    match nodeParent cn with
    | none => some size
    | some p => nodeSizeLoop fuel p (size >>> 1)

def calculateNodeSize (h : KmallocHeap) (node : Nat) : Option Nat :=
  nodeSizeLoop (h.heapDataSizeLog2 + 1) node h.size

/-- What the simulated recursion of `internal_kmalloc` ends with. -/
inductive SearchResult where
  /-- Every simulated call returned `NULL`. -/
  | null (h : KmallocHeap)
  /-- The last call reached a free node of the right size; `stack` are the nodes of the calls below it, innermost
  first. -/
  | found (h : KmallocHeap) (node nodeSize : Nat) (stack : List Nat)

/-- The simulated recursion of `internal_kmalloc`, up to the node that is going to be allocated. The bound is the number
of free slots of `alloc_stack`: a call beyond it fails the `VERIFY` of `SIMULATE_CALL2`. -/
def search (size : Nat) : Nat → KmallocHeap → (nodeSize node : Nat) → (stack : List Nat) → Option SearchResult
  | 0, _, _, _, _ => none
  | slots + 1, h, nodeSize, node, stack => do
    let n ← h.node? node
    if n.full then
      return .null h
    if nodeSize >>> 1 < size then
      if n.split then
        return .null h
      return .found h node nodeSize stack
    let h ← if !n.split then h.setNode node { n with split := true } else some h
    let left ← h.node? (nodeLeft node)
    let res ← if !left.full then search size slots h (nodeSize >>> 1) (nodeLeft node) (node :: stack) else some (.null h)
    match res with
    | .found h node nodeSize stack => return .found h node nodeSize stack
    | .null h =>
      let right ← h.node? (nodeRight node)
      if !right.full then search size slots h (nodeSize >>> 1) (nodeRight node) (node :: stack) else return .null h

/-- `internal_kmalloc`'s loop that marks the parents as full when both of their children are. -/
def markParents : KmallocHeap → (stack : List Nat) → Option KmallocHeap
  | h, [] => some h
  | h, nn :: stack => do
    let left ← h.node? (nodeLeft nn)
    let right ← h.node? (nodeRight nn)
    let h ← if left.full && right.full then h.modifyNode nn (fun b => { b with full := true }) else some h
    markParents h stack

def internalKmalloc (h : KmallocHeap) (size startNode startNodeSize : Nat) (markNodeAsAllocated doActualAlloc : Bool) :
    Option (KmallocHeap × Option Nat) := do
  let startNodeSize ← if startNodeSize = 0 then calculateNodeSize h startNode else some startNodeSize
  match ← search size allocStackSize h startNodeSize startNode [] with
  | .null h => return (h, none)
  | .found h node nodeSize stack =>
    let (h, success, vaddr) ←
      if markNodeAsAllocated then actualAllocateNode h nodeSize node doActualAlloc
      else some (h, true, nodeToPtr h node nodeSize)
    let h ← markParents h stack
    if !success then
      let (h, _) ← perHeapKfreeUnsafe h vaddr nodeSize 0
      return (h, none)
    let h := if doActualAlloc then { h with memAllocated := addWord h.memAllocated nodeSize } else h
    return (h, some vaddr)

/-- The loop of `internal_kmalloc_split_block`. It returns the heap and the first node of the row it stopped at, with
the size and the number of its nodes. -/
def splitRows : Nat → KmallocHeap → (leafNodeSize s n nodeCount : Nat) → Option (KmallocHeap × Nat × Nat × Nat)
  | 0, _, _, _, _, _ => none
  | fuel + 1, h, leafNodeSize, s, n, nodeCount =>
    if s > leafNodeSize then do
      let h ← h.mapRow n nodeCount
        (if s ≠ h.allocBlockSize then fun _ => splitFullNode else fun b => { b with split := true, full := true })
      splitRows fuel h leafNodeSize (s >>> 1) (nodeLeft n) (nodeCount <<< 1)
    else
      some (h, s, n, nodeCount)

def internalKmallocSplitBlock (h : KmallocHeap) (vaddr blockSize leafNodeSize : Nat) : Option KmallocHeap := do
  let (h, s, n, nodeCount) ←
    splitRows (h.heapDataSizeLog2 + 1) h leafNodeSize blockSize (ptrToNode h vaddr blockSize) 1
  h.mapRow n nodeCount
    (if s ≠ h.allocBlockSize then fun _ => fullNode else fun b => { b with full := true, split := false })

/-- The roll-back of `per_heap_kmalloc_unsafe`, from bit `j` on: it ends when `tot` is 0. -/
def rollback : Nat → KmallocHeap → (j bigBlock desiredSize tot : Nat) → (doSplit doActualAlloc : Bool) →
    Option KmallocHeap
  | 0, h, _, _, _, tot, _, _ => if tot > 0 then none else some h
  | fuel + 1, h, j, bigBlock, desiredSize, tot, doSplit, doActualAlloc =>
    if tot > 0 then
      if desiredSize.testBit j then do
        let h ← internalKfree h (bigBlock + (tot - 2 ^ j)) (2 ^ j) doSplit doActualAlloc
        rollback fuel h (j + 1) bigBlock desiredSize (tot - 2 ^ j) doSplit doActualAlloc
      else
        rollback fuel h (j + 1) bigBlock desiredSize tot doSplit doActualAlloc
    else
      some h

/-- The multi-step loop of `per_heap_kmalloc_unsafe`, at bit `i - 1`: the heap and `tot`, or no `tot` when an allocation
failed and was rolled back. -/
def multiAllocLoop : Nat → KmallocHeap → (bigBlock bigBlockNode roundedUpSize desiredSize tot subBlocksMinSize : Nat) →
    (doActualAlloc : Bool) → Option (KmallocHeap × Option Nat)
  | 0, h, _, _, _, _, tot, _, _ => some (h, some tot)
  | i + 1, h, bigBlock, bigBlockNode, roundedUpSize, desiredSize, tot, subBlocksMinSize, doActualAlloc =>
    if tot < desiredSize then
      if desiredSize.testBit i then do
        let doSplit := decide (subBlocksMinSize ≠ 0)
        let (h, addr) ← internalKmalloc h (2 ^ i) bigBlockNode roundedUpSize true doActualAlloc
        match addr with
        | none =>
          let h ← rollback h.heapDataSizeLog2 h (i + 1) bigBlock desiredSize tot doSplit doActualAlloc
          return (h, none)
        | some addr =>
          let h ← if doSplit then internalKmallocSplitBlock h addr (2 ^ i) subBlocksMinSize else some h
          multiAllocLoop i h bigBlock bigBlockNode roundedUpSize desiredSize (tot + 2 ^ i) subBlocksMinSize doActualAlloc
      else
        multiAllocLoop i h bigBlock bigBlockNode roundedUpSize desiredSize tot subBlocksMinSize doActualAlloc
    else
      some (h, some tot)

/-- `per_heap_kmalloc_unsafe`: the heap, the value left in `*size` and the returned pointer. -/
def perHeapKmallocUnsafe (h : KmallocHeap) (size flags : Nat) : Option (KmallocHeap × Nat × Option Nat) := do
  let multiStepAlloc := hasFlag flags flMultiStep
  let doActualAlloc := !hasFlag flags flNoActual
  let subBlocksMinSize := flags &&& flSubBlockMinSizeMask
  let doSplit := decide (subBlocksMinSize ≠ 0)
  if size > h.size then
    return (h, size, none)
  let roundedUpSize := max (roundupNextPowerOf2 size) h.minBlockSize
  if !multiStepAlloc || decide (roundedUpSize - size < h.minBlockSize) then
    let (h, addr) ← internalKmalloc h roundedUpSize 0 h.size true doActualAlloc
    match addr with
    | none => return (h, roundedUpSize, none)
    | some addr =>
      let h ← if doSplit then internalKmallocSplitBlock h addr roundedUpSize subBlocksMinSize else some h
      return (h, roundedUpSize, some addr)
  let (h, bigBlock) ← internalKmalloc h roundedUpSize 0 h.size false false
  match bigBlock with
  | none => return (h, size, none)
  | some bigBlock =>
    let bigBlockNode := ptrToNode h bigBlock roundedUpSize
    let (h, tot) ←
      multiAllocLoop h.heapDataSizeLog2 h bigBlock bigBlockNode roundedUpSize size 0 subBlocksMinSize doActualAlloc
    match tot with
    | none => return (h, size, none)
    | some tot => return (h, tot, some bigBlock)

/-! ## Setting a heap up -/

def calculateHeapMetadataSize (heapSize minBlockSize : Nat) : Nat := 2 * heapSize / minBlockSize

/-- `kmalloc_create_heap`, for given metadata nodes, which it clears. -/
def kmallocCreateHeap (vaddr size minBlockSize allocBlockSize : Nat) (linearMapping : Bool) (nodeBefore : BlockNode)
    (valloc : Nat → Bool) : KmallocHeap where
  vaddr := vaddr
  size := size
  memAllocated := 0
  metadataNodes := fun _ => newNode
  nodeBefore := nodeBefore
  minBlockSize := minBlockSize
  allocBlockSize := allocBlockSize
  vallocAndMap := valloc
  vallocCalls := 0
  vmEvents := []
  heapDataSizeLog2 := log2ForPowerOf2 size
  allocBlockSizeLog2 := log2ForPowerOf2 allocBlockSize
  metadataSize := calculateHeapMetadataSize size minBlockSize
  heapLastByte := vaddr + size - 1
  linearMapping := linearMapping

/-- A linear-mapped heap that keeps its metadata in its own first block, as `kmalloc_internal_add_heap` and
`alloc_new_small_heap_unsafe` set it up: the heap and what the allocation of the metadata returned. -/
def addHeapWithMetadata (vaddr heapSize minBlockSize : Nat) (nodeBefore : BlockNode) :
    Option (KmallocHeap × Nat × Option Nat) :=
  perHeapKmallocUnsafe (kmallocCreateHeap vaddr heapSize minBlockSize 0 true nodeBefore (fun _ => true))
    (calculateHeapMetadataSize heapSize minBlockSize) 0

end

end Usax.Kmalloc
