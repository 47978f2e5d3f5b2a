/-
The kernel heap: a list of block headers in address order, allocated and free
blocks together, linked through `next`.  The definitions follow
`kernel/heap.cpp` pointer by pointer; `0` is the null pointer.
-/
import VenomOS.LinkedChain

namespace VenomOS

namespace Heap

open LinkedChain

def alignment : Nat := 16
def minSplitRemainder : Nat := 32
def maxGrowAttempts : Nat := 256
def magicAllocated : Nat := 0xC0FFEE11
def magicFreed : Nat := 0xDEADF4EE

/-- `sizeof(BlockHeader)`: two words, the packed flag and magic, and the
reserved word. -/
def headerSize : Nat := 32

/-- `pmm::FRAME_SIZE`. -/
def frameSize : Nat := 4096

/-- The number of distinct `uintptr_t` values.  A pointer walk that makes this
many steps has met a pointer twice, so it never ends. -/
def addressCount : Nat := 2 ^ 64

structure BlockHeader where
  size : Nat
  free : Bool
  magic : Nat
  next : Nat
deriving Repr, DecidableEq

/-- The headers in memory by address, and the three globals of the
allocator. -/
structure State where
  header : Nat → BlockHeader
  freeListHead : Nat
  heapMin : Nat
  heapMax : Nat

def State.next (heap : State) (block : Nat) : Nat :=
  (heap.header block).next

def State.setHeader (heap : State) (block : Nat) (value : BlockHeader) :
    State :=
  { heap with header := Function.update heap.header block value }

/-- `align_up` for a power-of-two alignment, in 64-bit arithmetic. -/
def alignUp (value align : Nat) : Nat :=
  let sum := (value + align - 1) % 2 ^ 64
  sum - sum % align

def dataPtr (block : Nat) : Nat := block + headerSize

def State.adjacent (heap : State) (first second : Nat) : Bool :=
  dataPtr first + (heap.header first).size == second

def State.inHeapRange (heap : State) (addr : Nat) : Bool :=
  heap.heapMin != 0 && heap.heapMin ≤ addr && addr < heap.heapMax

def State.isTrackedBlock (heap : State) (block : Nat) : Option Bool :=
  (walkUntil heap.next (fun cell => cell == 0 || cell == block) addressCount
    heap.freeListHead).map fun cell => cell != 0

/-- `block` takes over the bytes of the block that follows it. -/
def State.absorb (heap : State) (block other : Nat) : State :=
  heap.setHeader block
    { heap.header block with
      size := (heap.header block).size + headerSize + (heap.header other).size
      next := heap.next other }

def State.setNext (heap : State) (block target : Nat) : State :=
  heap.setHeader block { heap.header block with next := target }

/-- The forward merge of `insert_free_block`: the following block is absorbed
whenever it touches. -/
def State.absorbNext (heap : State) (block : Nat) : State :=
  if heap.next block != 0 && heap.adjacent block (heap.next block) then
    heap.absorb block (heap.next block)
  else heap

/-- The forward merge of `kfree`, which also asks the following block to be
free. -/
def State.absorbFreeNext (heap : State) (block : Nat) : State :=
  if heap.next block != 0 && (heap.header (heap.next block)).free &&
      heap.adjacent block (heap.next block) then
    heap.absorb block (heap.next block)
  else heap

/-- `insert_free_block`, the branch that puts the block in front of the
list. -/
def State.insertAtHead (heap : State) (block : Nat) : State :=
  let heap :=
    if heap.freeListHead != 0 && heap.adjacent block heap.freeListHead then
      heap.absorb block heap.freeListHead
    else heap.setNext block heap.freeListHead
  { heap with freeListHead := block }

/-- `insert_free_block`, the branch that links the block after `prev`.  The
preceding block absorbs the new one only when it is free. -/
def State.insertAfter (heap : State) (prev block : Nat) : State :=
  let heap := (heap.setNext block (heap.next prev)).absorbNext block
  if heap.adjacent prev block && (heap.header prev).free then
    heap.absorb prev block
  else heap.setNext prev block

def State.insertFreeBlock (heap : State) (block : Nat) : Option State :=
  let heap := heap.setHeader block
    { heap.header block with free := true, magic := magicFreed }
  if heap.freeListHead = 0 ∨ block < heap.freeListHead then
    some (heap.insertAtHead block)
  else
    (walkUntil heap.next
      (fun cell => heap.next cell == 0 || !(heap.next cell < block))
      addressCount heap.freeListHead).map
        fun prev => heap.insertAfter prev block

/-- `grow_heap` after `pmm::alloc_frame` returned the non-null `frame`. -/
def State.growHeap (heap : State) (frame : Nat) : Option State :=
  let heap := heap.setHeader frame
    ⟨frameSize - headerSize, true, magicFreed, 0⟩
  let frameEnd := frame + frameSize
  let heap :=
    { heap with
      heapMin := if heap.heapMin = 0 ∨ frame < heap.heapMin then frame
        else heap.heapMin
      heapMax := if heap.heapMax < frameEnd then frameEnd else heap.heapMax }
  heap.insertFreeBlock frame

/-- `heap::init` on the zero-initialised globals.  The header memory holds
whatever the frames held before. -/
def init (header : Nat → BlockHeader) : State := ⟨header, 0, 0, 0⟩

/-- Take `size` bytes of the free block `block`, splitting it when what is left
can hold a header and a payload. -/
def State.takeBlock (heap : State) (block size : Nat) : State :=
  let remainder := (heap.header block).size - size
  let heap :=
    if headerSize + minSplitRemainder ≤ remainder then
      let newBlock := dataPtr block + size
      let heap := heap.setHeader newBlock
        ⟨remainder - headerSize, true, magicFreed, heap.next block⟩
      heap.setHeader block
        { heap.header block with size := size, next := newBlock }
    else heap
  heap.setHeader block
    { heap.header block with free := false, magic := magicAllocated }

/-- The first free block of at least `size` bytes, `0` when there is none. -/
def State.findBlock (heap : State) (size : Nat) : Option Nat :=
  walkUntil heap.next
    (fun cell => cell == 0 ||
      ((heap.header cell).free && size ≤ (heap.header cell).size))
    addressCount heap.freeListHead

/-- What a call of `kmalloc` leaves behind: the pointer, the heap and the
frames it took from the frame allocator. -/
structure Allocation where
  ptr : Nat
  heap : State
  taken : List Nat

/-- The attempt loop of `kmalloc`.  `frames` are the answers of
`pmm::alloc_frame`, `0` and the end of the list standing for "no frame". -/
def kmallocLoop (size : Nat) :
    Nat → State → List Nat → Option Allocation
  | 0, heap, _ => some ⟨0, heap, []⟩
  | attempts + 1, heap, frames => do
      let block ← heap.findBlock size
      if block != 0 then
        some ⟨dataPtr block, heap.takeBlock block size, []⟩
      else
        match frames with
        | [] => some ⟨0, heap, []⟩
        | 0 :: _ => some ⟨0, heap, []⟩
        | frame :: rest =>
            let heap ← heap.growHeap frame
            let result ← kmallocLoop size attempts heap rest
            some { result with taken := frame :: result.taken }

/-- `kmalloc`.  `none` stands for a list walk that never ends. -/
def kmalloc (heap : State) (size : Nat) (frames : List Nat) :
    Option Allocation :=
  if size = 0 then some ⟨0, heap, []⟩
  else kmallocLoop (alignUp size alignment) (maxGrowAttempts + 1) heap frames

/-- How `kfree` ended: ignored on a null pointer, rejected with the reason
`report_invalid_free` prints, or accepted. -/
inductive FreeOutcome where
  | ignored
  | rejected (reason : String)
  | accepted
deriving Repr, DecidableEq

/-- The body of `kfree` once the block is accepted: absorb a free successor,
then let a free predecessor absorb the block. -/
def State.releaseBlock (heap : State) (block : Nat) : Option State :=
  let heap := (heap.setHeader block
    { heap.header block with free := true, magic := magicFreed }).absorbFreeNext
      block
  if heap.freeListHead != 0 && heap.freeListHead != block then
    (walkUntil heap.next
      (fun cell => heap.next cell == 0 || heap.next cell == block)
      addressCount heap.freeListHead).map fun prev =>
        if heap.next prev == block && (heap.header prev).free &&
            heap.adjacent prev block then
          heap.absorb prev block
        else heap
  else some heap

def kfree (heap : State) (ptr : Nat) : Option (State × FreeOutcome) :=
  if ptr = 0 then some (heap, .ignored)
  else if ptr % alignment ≠ 0 then
    some (heap, .rejected "misaligned pointer")
  else if !heap.inHeapRange ptr then
    some (heap, .rejected "pointer outside heap range")
  else if ptr < heap.heapMin + headerSize then
    some (heap, .rejected "pointer too low for a valid block header")
  else do
    let block := ptr - headerSize
    let tracked ← heap.isTrackedBlock block
    if !tracked then
      some (heap, .rejected "pointer is not a tracked heap block")
    else if (heap.header block).magic = magicFreed then
      some (heap, .rejected "double free detected")
    else if (heap.header block).magic ≠ magicAllocated ∨
        (heap.header block).free then
      some (heap, .rejected "corrupted block header")
    else
      let heap ← heap.releaseBlock block
      some (heap, .accepted)

/-- The loop of `bytes_in_use` and `bytes_free`: the sizes of the blocks whose
mark is `free`, added up in 64-bit arithmetic. -/
def State.bytesMarked (heap : State) (free : Bool) : Option Nat :=
  walkFold heap.next 0
    (fun total cell =>
      if (heap.header cell).free == free then
        (total + (heap.header cell).size) % 2 ^ 64
      else total)
    addressCount heap.freeListHead 0

def State.bytesInUse (heap : State) : Option Nat := heap.bytesMarked false

def State.bytesFree (heap : State) : Option Nat := heap.bytesMarked true

end Heap

end VenomOS
