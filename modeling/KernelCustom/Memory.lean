import KernelCustom.Word32
import KernelCustom.ByteStore

namespace KernelCustom
open Word32 ByteStore
set_option autoImplicit true

def pageSize : Nat := 4096
def heapSize : Nat := 512 * 1024
def heapAlign : Nat := 16
def identityMapBytes : Nat := 128 * 1024 * 1024
def userProgramBase : Nat := 0x00800000
def userProgramMaxSize : Nat := 1024 * 1024
def userStackTop : Nat := 0x00C00000
def userStackSize : Nat := 0x00001000

/-- Where the linker put the static objects of `memory.c`. The image starts at 1 MiB, ends at
`kernel_end`, and lies below the area that is kept for user programs. -/
structure Layout where
  gHeap : Nat
  gPageDirectory : Nat
  gPageTables : Nat
  kernelEnd : Nat
  heap_aligned : gHeap % 16 = 0
  directory_aligned : gPageDirectory % 4096 = 0
  tables_aligned : gPageTables % 4096 = 0
  heap_placed : 0x00100000 ≤ gHeap ∧ gHeap + 524288 ≤ kernelEnd
  directory_placed : 0x00100000 ≤ gPageDirectory ∧ gPageDirectory + 4096 ≤ kernelEnd
  tables_placed : 0x00100000 ≤ gPageTables ∧ gPageTables + 131072 ≤ kernelEnd
  heap_directory : gHeap + 524288 ≤ gPageDirectory ∨ gPageDirectory + 4096 ≤ gHeap
  heap_tables : gHeap + 524288 ≤ gPageTables ∨ gPageTables + 131072 ≤ gHeap
  directory_tables : gPageDirectory + 4096 ≤ gPageTables ∨ gPageTables + 131072 ≤ gPageDirectory
  below_user : kernelEnd ≤ 0x00800000

def Layout.heapEnd (L : Layout) : Nat := L.gHeap + 524288

/-- A link map of the kernel image. -/
def Layout.sample : Layout where
  gHeap := 0x00110000
  gPageDirectory := 0x00200000
  gPageTables := 0x00201000
  kernelEnd := 0x00300000
  heap_aligned := by decide
  directory_aligned := by decide
  tables_aligned := by decide
  heap_placed := by decide
  directory_placed := by decide
  tables_placed := by decide
  heap_directory := by decide
  heap_tables := by decide
  directory_tables := by decide
  below_user := by decide

/-- The physical memory and the static variables of `memory.c`. The page directory, the page
tables and the heap are objects in the memory; the frame bitmap is only reached by name. -/
structure MemoryState where
  mem : Mem
  gHeapHead : Nat
  gHeapReady : Bool
  gTotalMemoryBytes : Nat
  gTotalFrames : Nat
  gFrameBitmap : Nat → Nat
  gPagingReady : Bool

def memset (m : Mem) (dst : Nat) (c : UInt8) : Nat → Mem
  | 0 => m
  | n + 1 => memset (Function.update m dst c) (wrap (dst + 1)) c n

def memcpy (m : Mem) (dst src : Nat) : Nat → Mem
  | 0 => m
  | n + 1 => memcpy (Function.update m dst (m src)) (wrap (dst + 1)) (wrap (src + 1)) n

theorem memset_apply (m : Mem) (dst : Nat) (c : UInt8) (h : dst + n ≤ 4294967296) (x : Nat) :
    memset m dst c n x = if dst ≤ x ∧ x < dst + n then c else m x := by
  induction n generalizing m dst with
  | zero =>
    rw [if_neg (by omega)]
    rfl
  | succ n ih =>
    rw [memset]
    -- after the last byte the pointer may wrap to 0, but then nothing is left to write
    cases n with
    | zero =>
      simp only [memset, Function.update_apply]
      split <;> split <;> first | rfl | omega
    | succ n =>
      rw [wrap_of_lt (by omega), ih _ _ (by omega)]
      simp only [Function.update_apply]
      split <;> split <;> (try split) <;> first | rfl | omega

/-- A forward copy to a range that does not begin inside the source, behind its start. -/
theorem memcpy_apply (m : Mem) (dst src : Nat) (hd : dst + n ≤ 4294967296)
    (hs : src + n ≤ 4294967296) (ha : dst ≤ src ∨ src + n ≤ dst) (x : Nat) :
    memcpy m dst src n x = if dst ≤ x ∧ x < dst + n then m (src + (x - dst)) else m x := by
  induction n generalizing m dst src with
  | zero =>
    rw [if_neg (by omega)]
    rfl
  | succ n ih =>
    rw [memcpy]
    cases n with
    | zero =>
      simp only [memcpy, Function.update_apply]
      split
      · next hx => rw [if_pos (by omega), hx, Nat.sub_self, Nat.add_zero]
      · rw [if_neg (by omega)]
    | succ n =>
      rw [wrap_of_lt (by omega), wrap_of_lt (by omega),
        ih _ _ _ (by omega) (by omega) (by omega)]
      simp only [Function.update_apply]
      by_cases hx : x = dst
      · rw [if_neg (by omega), if_pos hx, if_pos (by omega), hx, Nat.sub_self, Nat.add_zero]
      · by_cases hi : dst + 1 ≤ x ∧ x < dst + 1 + (n + 1)
        · have hne : ¬ src + 1 + (x - (dst + 1)) = dst := by omega
          rw [if_pos hi, if_neg hne, if_pos (by omega)]
          congr 1
          omega
        · rw [if_neg hi, if_neg hx, if_neg (by omega)]

end KernelCustom
