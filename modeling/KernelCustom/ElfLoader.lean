import KernelCustom.Paging
import KernelCustom.Heap

namespace KernelCustom
open Word32 ByteStore
set_option autoImplicit true

def elf32Magic : Nat := 0x464C457F
def elf32Class32 : UInt8 := 1
def elf32DataLsb : UInt8 := 1
def elf32VersionCurrent : Nat := 1
def elf32Machine386 : Nat := 3
def elf32PtLoad : Nat := 1
def sizeofEhdr : Nat := 52
def sizeofPhdr : Nat := 32

/-- The fields of `struct elf32_ehdr` that the loader looks at. -/
structure Ehdr where
  magic : Nat
  identClass : UInt8
  identData : UInt8
  identVersion : UInt8
  machine : Nat
  version : Nat
  entry : Nat
  phoff : Nat
  ehsize : Nat
  phentsize : Nat
  phnum : Nat
  deriving DecidableEq

def readEhdr (m : Mem) (a : Nat) : Ehdr where
  magic := load32 m a
  identClass := m (a + 4)
  identData := m (a + 5)
  identVersion := m (a + 6)
  machine := load16 m (a + 18)
  version := load32 m (a + 20)
  entry := load32 m (a + 24)
  phoff := load32 m (a + 28)
  ehsize := load16 m (a + 40)
  phentsize := load16 m (a + 42)
  phnum := load16 m (a + 44)

/-- The fields of `struct elf32_phdr` that the loader looks at. -/
structure Phdr where
  type : Nat
  offset : Nat
  vaddr : Nat
  filesz : Nat
  memsz : Nat
  deriving DecidableEq

def readPhdr (m : Mem) (a : Nat) : Phdr where
  type := load32 m a
  offset := load32 m (a + 4)
  vaddr := load32 m (a + 8)
  filesz := load32 m (a + 16)
  memsz := load32 m (a + 20)

/-- Why a program is refused. -/
inductive Rejection where
  | nullArgument
  | notRegular
  | tooSmall
  | kmallocFailed
  | loadFailed
  | badMagic
  | badIdent
  | unsupportedTarget
  | ehdrSize
  | phdrSize
  | phdrTable
  | segmentOverflow
  | segmentOutsideFile
  | memszBelowFilesz
  | segmentOutsideUserRange
  deriving DecidableEq

/-- The `dbg_msg` text of a refusal; a null argument is refused silently. -/
def Rejection.message : Rejection → Option String
  | nullArgument => none
  | notRegular => some "target is not a regular file"
  | tooSmall => some "file too small"
  | kmallocFailed => some "kmalloc failed"
  | loadFailed => some "file load failed"
  | badMagic => some "bad magic"
  | badIdent => some "bad ident"
  | unsupportedTarget => some "unsupported target"
  | ehdrSize => some "unexpected ehdr size"
  | phdrSize => some "unexpected phdr size"
  | phdrTable => some "invalid phdr table"
  | segmentOverflow => some "segment overflow"
  | segmentOutsideFile => some "segment outside file"
  | memszBelowFilesz => some "memsz < filesz"
  | segmentOutsideUserRange => some "segment outside user range"

def validateSegment (vaddr memsz : Nat) : Bool :=
  if memsz = 0 then true
  else
    let regionStart := userProgramBase
    let regionEnd := userProgramBase + userProgramMaxSize
    let segEnd := wrap (vaddr + memsz)
    if vaddr < regionStart then false
    else if segEnd < vaddr then false
    else if regionEnd < segEnd then false
    else true

def checkHeader (size : Nat) (ehdr : Ehdr) : Except Rejection Unit :=
  if ehdr.magic ≠ elf32Magic then .error .badMagic
  else if ehdr.identClass ≠ elf32Class32 ∨ ehdr.identData ≠ elf32DataLsb ∨
      ehdr.identVersion.toNat ≠ elf32VersionCurrent then .error .badIdent
  else if ehdr.machine ≠ elf32Machine386 ∨ ehdr.version ≠ elf32VersionCurrent then
    .error .unsupportedTarget
  else if ehdr.ehsize ≠ sizeofEhdr then .error .ehdrSize
  else if ehdr.phentsize ≠ sizeofPhdr then .error .phdrSize
  else
    let phEnd := wrap (ehdr.phoff + ehdr.phnum * sizeofPhdr)
    if phEnd < ehdr.phoff ∨ size < phEnd then .error .phdrTable else .ok ()

def checkSegment (size : Nat) (phdr : Phdr) : Except Rejection Unit :=
  if wrap (phdr.offset + phdr.filesz) < phdr.offset then .error .segmentOverflow
  else if size < wrap (phdr.offset + phdr.filesz) then .error .segmentOutsideFile
  else if phdr.memsz < phdr.filesz then .error .memszBelowFilesz
  else if validateSegment phdr.vaddr phdr.memsz = false then .error .segmentOutsideUserRange
  else .ok ()

/-- An access of the loader: bytes of the image by index, bytes of a segment by address. A
header counts as read whole. -/
inductive Access where
  | image (index len : Nat)
  | segment (addr len : Nat)

/-- The memory, and what the loader has accessed so far. -/
structure LoadState where
  mem : Mem
  log : List Access

def LoadState.note (s : LoadState) (accesses : List Access) : LoadState :=
  { s with log := s.log ++ accesses }

def markSegment (L : Layout) (m : Mem) (phdr : Phdr) : Mem :=
  if phdr.memsz ≠ 0 then pagingMarkUserRange L m phdr.vaddr (alignUp phdr.memsz pageSize) else m

/-- The memory after an accepted segment: pages, contents, zeroes. -/
def placeSegment (L : Layout) (image : Nat) (m : Mem) (phdr : Phdr) : Mem :=
  let m := markSegment L m phdr
  let m := memcpy m phdr.vaddr (wrap (image + phdr.offset)) phdr.filesz
  if phdr.filesz < phdr.memsz then
    memset m (wrap (phdr.vaddr + phdr.filesz)) 0 (phdr.memsz - phdr.filesz)
  else m

def placeAccesses (phdr : Phdr) : List Access :=
  .image phdr.offset phdr.filesz :: .segment phdr.vaddr phdr.filesz ::
    if phdr.filesz < phdr.memsz then
      [.segment (wrap (phdr.vaddr + phdr.filesz)) (phdr.memsz - phdr.filesz)]
    else []

/-- The loop over the program headers. `e_phnum` has 16 bits, so `2 ^ 16` rounds always do. -/
def segmentLoop (L : Layout) (image size : Nat) :
    Nat → Nat → LoadState → Except Rejection Unit × LoadState
  | 0, _, s => (.ok (), s)
  | fuel + 1, i, s =>
    let ehdr := readEhdr s.mem image
    let s := s.note [.image 0 sizeofEhdr]
    if i < ehdr.phnum then
      let phdr := readPhdr s.mem (wrap (image + ehdr.phoff + i * sizeofPhdr))
      let s := s.note [.image (ehdr.phoff + i * sizeofPhdr) sizeofPhdr]
      if phdr.type ≠ elf32PtLoad then segmentLoop L image size fuel (i + 1) s
      else
        match checkSegment size phdr with
        | .error e => (.error e, s)
        | .ok () =>
          segmentLoop L image size fuel (i + 1)
            (LoadState.note { s with mem := placeSegment L image s.mem phdr } (placeAccesses phdr))
    else (.ok (), s)

/-- What is done with an image that has been read into memory; the value is `e_entry`. -/
def loadImage (L : Layout) (image size : Nat) (m : Mem) : Except Rejection Nat × LoadState :=
  let s : LoadState := ⟨m, [.image 0 sizeofEhdr]⟩
  match checkHeader size (readEhdr s.mem image) with
  | .error e => (.error e, s)
  | .ok () =>
    match segmentLoop L image size 65536 0 s with
    | (.error e, s) => (.error e, s)
    | (.ok (), s) => (.ok (readEhdr s.mem image).entry, s.note [.image 0 sizeofEhdr])

/-- The part of `vfs_node_t` that the loader looks at. -/
structure VfsNode where
  internalId : Nat
  type : Nat
  size : Nat
  size_lt : size < 4294967296

/-- The file layer, which the kernel is linked with: `vfs_read` writes only into its buffer, and
fills it with bytes of the file when it returns `true`. -/
structure Vfs where
  typeFile : Nat
  content : VfsNode → Nat → UInt8
  read : VfsNode → Mem → Nat → Nat → Nat → Bool × Mem
  read_frame : ∀ node m offset size buf x, x < buf ∨ buf + size ≤ x →
    (read node m offset size buf).2 x = m x
  read_fills : ∀ node m offset size buf, (read node m offset size buf).1 = true →
    ∀ k, k < size → (read node m offset size buf).2 (buf + k) = content node (offset + k)

/-- What a call leaves behind: its answer, `*entry_point_out`, the memory and the accesses. -/
structure Loaded where
  answer : Except Rejection Unit
  entryPointOut : Option Nat
  state : MemoryState
  log : List Access

/-- `load_elf_program_from_vfs`; `none` stands for a null pointer. -/
def loadElfProgramFromVfs (L : Layout) (V : Vfs) (s : MemoryState) (node : Option VfsNode)
    (entryPointOut : Option Nat) : Option Loaded :=
  match node, entryPointOut with
  | some node, some out =>
    if node.type ≠ V.typeFile then some ⟨.error .notRegular, some out, s, []⟩
    else if node.size < sizeofEhdr then some ⟨.error .tooSmall, some out, s, []⟩
    else
      (kmalloc L s node.size).map fun r =>
        let image := r.1
        let s := r.2
        if image = 0 then ⟨.error .kmallocFailed, some out, s, []⟩
        else
          let file := V.read node s.mem 0 node.size image
          let s := { s with mem := file.2 }
          if file.1 = false then ⟨.error .loadFailed, some out, kfree s image, []⟩
          else
            let l := loadImage L image node.size s.mem
            let s := { s with mem := l.2.mem }
            match l.1 with
            | .error e => ⟨.error e, some out, kfree s image, l.2.log⟩
            | .ok entry => ⟨.ok (), some entry, kfree s image, l.2.log⟩
  | _, _ => some ⟨.error .nullArgument, entryPointOut, s, []⟩

end KernelCustom
