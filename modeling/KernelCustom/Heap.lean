import KernelCustom.Memory
import KernelCustom.BlockTiling

namespace KernelCustom
open Word32 ByteStore
set_option autoImplicit true

/-- `BLOCK_MAGIC`. -/
def blockMagicWord : Nat := 0xC0FFEE42

/-- `sizeof(heap_block_t)` on i386: two words, the flag with its padding, two pointers. -/
def sizeofHeapBlock : Nat := 20

def headerSize : Nat := alignUp sizeofHeapBlock heapAlign

theorem headerSize_eq : headerSize = 32 := by decide

/-! The fields of `heap_block_t`, at their offsets in the header. -/

def blockMagic (m : Mem) (b : Nat) : Nat := load32 m b
def blockSize (m : Mem) (b : Nat) : Nat := load32 m (b + 4)
def blockFree (m : Mem) (b : Nat) : UInt8 := m (b + 8)
def blockNext (m : Mem) (b : Nat) : Nat := load32 m (b + 12)
def blockPrev (m : Mem) (b : Nat) : Nat := load32 m (b + 16)

def setMagic (m : Mem) (b v : Nat) : Mem := store32 m b v
def setSize (m : Mem) (b v : Nat) : Mem := store32 m (b + 4) v
def setFree (m : Mem) (b : Nat) (v : UInt8) : Mem := Function.update m (b + 8) v
def setNext (m : Mem) (b v : Nat) : Mem := store32 m (b + 12) v
def setPrev (m : Mem) (b v : Nat) : Mem := store32 m (b + 16) v

def blockPayload (block : Nat) : Nat := wrap (block + headerSize)

def payloadBlock (ptr : Nat) : Nat := sub ptr headerSize

/-- `if (next) next->prev = block`, the last step of a split and of a merge. -/
def relink (m : Mem) (next block : Nat) : Mem :=
  if next ≠ 0 then setPrev m next block else m

def splitBlock (m : Mem) (block size : Nat) : Mem :=
  let totalNeeded := wrap (headerSize + alignUp size heapAlign)
  if blockSize m block ≤ wrap (totalNeeded + headerSize + heapAlign) then m
  else
    let newBlock := wrap (block + totalNeeded)
    let m := setMagic m newBlock blockMagicWord
    let m := setSize m newBlock (sub (blockSize m block) totalNeeded)
    let m := setFree m newBlock 1
    let m := setNext m newBlock (blockNext m block)
    let m := setPrev m newBlock block
    let m := relink m (blockNext m newBlock) newBlock
    let m := setNext m block newBlock
    setSize m block totalNeeded

def mergeWithNext (m : Mem) (block : Nat) : Mem :=
  if block = 0 ∨ blockNext m block = 0 ∨ blockFree m (blockNext m block) = 0 then m
  else
    let expected := wrap (block + blockSize m block)
    if blockNext m block ≠ expected then m
    else
      let next := blockNext m block
      let m := setSize m block (wrap (blockSize m block + blockSize m next))
      let m := setNext m block (blockNext m next)
      relink m (blockNext m block) block

def heapInit (L : Layout) (s : MemoryState) : MemoryState :=
  if s.gHeapReady then s
  else
    let head := L.gHeap
    let m := setMagic s.mem head blockMagicWord
    let m := setSize m head heapSize
    let m := setFree m head 1
    let m := setNext m head 0
    let m := setPrev m head 0
    { s with mem := m, gHeapHead := head, gHeapReady := true }

/-- The search loop of `kmalloc`. The list is not written before a block is found, so a walk that
is still going after `2 ^ 32` blocks has met one twice and never ends: no result. -/
def kmallocLoop (m : Mem) (alignedSize : Nat) : Nat → Nat → Option (Nat × Mem)
  | 0, _ => none
  | fuel + 1, cur =>
    if cur = 0 then some (0, m)
    else if blockMagic m cur = blockMagicWord ∧ blockFree m cur ≠ 0 ∧
        wrap (alignedSize + headerSize) ≤ blockSize m cur then
      some (blockPayload cur, setFree (splitBlock m cur alignedSize) cur 0)
    else kmallocLoop m alignedSize fuel (blockNext m cur)

def kmalloc (L : Layout) (s : MemoryState) (size : Nat) : Option (Nat × MemoryState) :=
  if size = 0 then some (0, s)
  else
    let s := if s.gHeapReady then s else heapInit L s
    let alignedSize := alignUp size heapAlign
    (kmallocLoop s.mem alignedSize 4294967296 s.gHeapHead).map
      fun r => (r.1, { s with mem := r.2 })

def kfree (s : MemoryState) (ptr : Nat) : MemoryState :=
  if ptr = 0 then s
  else
    let block := payloadBlock ptr
    if blockMagic s.mem block ≠ blockMagicWord then s
    else
      let m := setFree s.mem block 1
      let m := mergeWithNext m block
      let m :=
        if blockPrev m block ≠ 0 ∧ blockFree m (blockPrev m block) ≠ 0 then
          mergeWithNext m (blockPrev m block)
        else m
      { s with mem := m }

def kcalloc (L : Layout) (s : MemoryState) (count size : Nat) : Option (Nat × MemoryState) :=
  if count ≠ 0 ∧ 4294967295 / count < size then some (0, s)
  else
    let total := wrap (count * size)
    (kmalloc L s total).map fun r =>
      if r.1 = 0 then (0, r.2) else (r.1, { r.2 with mem := memset r.2.mem r.1 0 total })

def krealloc (L : Layout) (s : MemoryState) (ptr size : Nat) : Option (Nat × MemoryState) :=
  if ptr = 0 then kmalloc L s size
  else if size = 0 then some (0, kfree s ptr)
  else
    let block := payloadBlock ptr
    if blockMagic s.mem block ≠ blockMagicWord then some (0, s)
    else
      let oldSize := sub (blockSize s.mem block) headerSize
      if size ≤ oldSize then some (ptr, s)
      else
        (kmalloc L s size).map fun r =>
          if r.1 = 0 then (0, r.2)
          else (r.1, kfree { r.2 with mem := memcpy r.2.mem r.1 ptr oldSize } ptr)

/-- What one header on the block list says. -/
structure HeapBlock where
  addr : Nat
  magic : Nat
  size : Nat
  free : UInt8
  next : Nat
  prev : Nat
  deriving DecidableEq

def readBlock (m : Mem) (b : Nat) : HeapBlock :=
  ⟨b, blockMagic m b, blockSize m b, blockFree m b, blockNext m b, blockPrev m b⟩

/-- The headers met by following `next` from a block. -/
def blocksFrom (m : Mem) : Nat → Nat → List HeapBlock
  | 0, _ => []
  | fuel + 1, cur => if cur = 0 then [] else readBlock m cur :: blocksFrom m fuel (blockNext m cur)

/-- The block list of the heap: addresses, sizes, free flags and links, in list order. -/
def blockList (s : MemoryState) : List HeapBlock := blocksFrom s.mem 4294967296 s.gHeapHead

end KernelCustom
