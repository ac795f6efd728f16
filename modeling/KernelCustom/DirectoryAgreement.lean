import KernelCustom.DirectoryScan
import KernelCustom.MountSafety

namespace KernelCustom
open Word32 ByteStore CString EarlyExit
set_option autoImplicit true

/-- A directory whose blocks the twelve direct ids and the indirect block reach: what `read_inode`
brings for its number, and the entries of its blocks, at their places on the drive. -/
structure DirectoryHolds (fs : FileSystem) (disk : Disk) (dir : Nat) (ino : Mem)
    (entries : List DirEntry) : Prop where
  block_size : fs.gBlockSize = 1024 ∨ fs.gBlockSize = 2048 ∨ fs.gBlockSize = 4096
  number : 1 ≤ dir ∧ dir ≤ fs.gSb.inodesCount
  read : readInode fs disk dir zeroed = .ok ino
  directory : isDirectory ino = true
  reach : iSize ino ≤ (12 + fs.gBlockSize / 4) * fs.gBlockSize
  indirect : 12 < blockCountOf fs ino → iBlock ino 12 ≤ 0x100000
  blocks : BlocksHold (placedBlock fs disk) fs.gBlockSize
    ((List.range (blockCountOf fs ino)).map (fileBlock (placedBlock fs disk) ino)) entries

/-- The three scanners implement one directory: `ext2_ls` lists its live entries in order, and the
two finders give the inode of the first live entry with the name, or 0. -/
structure ScannersAgree (L : Layout) (fs : FileSystem) (disk : Disk) (heap : MemoryState)
    (dir : Nat) (entries : List DirEntry) : Prop where
  ls : ∀ blockBuf inode out, ∃ st, ext2Ls L disk heap blockBuf inode (some fs) dir out = .ok st ∧
    st.result.vga = out.vga ++ (entries.filter DirEntry.live).flatMap lsLine ∧
    st.result.serial = out.serial ++ (entries.filter DirEntry.live).flatMap lsLog
  find : ∀ blockBuf inode name, ∃ st st',
    findInodeInDir L disk heap blockBuf inode fs dir name = .ok st ∧
    ext2Lookup L disk heap blockBuf inode fs dir name = .ok st' ∧
    st.result = inodeNamed entries name ∧ st'.result = inodeNamed entries name

section
variable {L : Layout} {fs : FileSystem} {disk : Disk} {heap : MemoryState} {dir : Nat} {ino : Mem}
  {entries : List DirEntry} (hd : DirectoryHolds fs disk dir ino entries)
include hd

theorem DirectoryHolds.count_le : blockCountOf fs ino ≤ 12 + fs.gBlockSize / 4 :=
  (blockCount_bounds hd.block_size hd.reach).2.2.2.1

end

section
variable {fs : FileSystem} {disk disk' : Disk} (h : Alike fs disk disk')
include h

theorem Alike.scanBlocks (L : Layout) (visit : Visit σ) (inode : Mem) (left blk : Nat)
    (st : Scan σ) :
    scanBlocks L fs disk' visit inode left blk st =
      scanBlocks L fs disk visit inode left blk st := by
  rw [Alike] at h
  induction left generalizing blk st with
  | zero => rfl
  | succ left ih => simp only [KernelCustom.scanBlocks, blockIdOf, openIndirect, scanBlock, h, ih]

theorem Alike.ext2Ls (L : Layout) (heap : MemoryState) (blockBuf inode : Mem) (dir : Nat)
    (out : Console) :
    ext2Ls L disk' heap blockBuf inode (some fs) dir out =
      ext2Ls L disk heap blockBuf inode (some fs) dir out := by
  simp only [KernelCustom.ext2Ls, readLocalInode, h.readInode, scanDirectory, h.scanBlocks]

end

/-- How much `ext2_ls` prints of some entries. -/
def listedLength (es : List DirEntry) : Nat :=
  ((es.filter DirEntry.live).flatMap lsLine).length

theorem listedLength_append (es es' : List DirEntry) :
    listedLength (es ++ es') = listedLength es + listedLength es' := by
  rw [listedLength, List.filter_append, List.flatMap_append, List.length_append, listedLength,
    listedLength]

/-- An indirect block that is none of the direct ones, of which one holds a live entry, as the first
block of an ext2 directory does with `.`. -/
structure IndirectTells (fs : FileSystem) (disk : Disk) (ino : Mem) : Prop where
  separate : ∀ b < 12, iBlock ino b ≠ iBlock ino 12
  shown : ∃ b < 12, iBlock ino b ≠ 0 ∧ ∃ es,
    EntriesAt (placedBlock fs disk (iBlock ino b)) fs.gBlockSize 0 es ∧
      ∃ e ∈ es, e.live = true

theorem listedLength_pos (he : e ∈ es) (hl : e.live = true) : 0 < listedLength es := by
  rw [listedLength, List.length_pos_iff]
  intro hnil
  have hline := List.flatMap_eq_nil_iff.1 hnil e (List.mem_filter.2 ⟨he, hl⟩)
  rw [lsLine] at hline
  exact absurd (List.append_eq_nil_iff.1 hline).2 (by decide)

/-- Other entries in one of the blocks count as often as the block. -/
theorem BlocksHold.replace (h : BlocksHold blockAt gBlockSize ids es) (hz : far ≠ 0) :
    ∃ rest, ∀ blockAt' new,
      (∀ blockId, blockId ≠ far → SameOn (blockAt blockId) (blockAt' blockId) 0 gBlockSize) →
      EntriesAt (blockAt' far) gBlockSize 0 new →
      ∃ es', BlocksHold blockAt' gBlockSize ids es' ∧
        listedLength es' = rest + ids.count far * listedLength new := by
  induction h with
  | nil => exact ⟨0, fun _ _ _ _ => ⟨[], .nil, by simp [listedLength]⟩⟩
  | hole _ ih =>
    obtain ⟨rest, ih⟩ := ih
    refine ⟨rest, fun blockAt' new hsame hnew => ?_⟩
    obtain ⟨es', hes', hlen⟩ := ih blockAt' new hsame hnew
    exact ⟨es', .hole hes', by rw [List.count_cons_of_ne hz.symm, hlen]⟩
  | @block blockId es ids es' hne hle hes _ ih =>
    obtain ⟨rest, ih⟩ := ih
    by_cases hfar : blockId = far
    · subst hfar
      refine ⟨rest, fun blockAt' new hsame hnew => ?_⟩
      obtain ⟨tail, htail, hlen⟩ := ih blockAt' new hsame hnew
      refine ⟨new ++ tail, .block hne hle hnew htail, ?_⟩
      rw [listedLength_append, hlen, List.count_cons_self, Nat.succ_mul]
      omega
    · refine ⟨listedLength es + rest, fun blockAt' new hsame hnew => ?_⟩
      obtain ⟨tail, htail, hlen⟩ := ih blockAt' new hsame hnew
      refine ⟨es ++ tail, .block hne hle (hes.congr (hsame blockId hfar)) htail, ?_⟩
      rw [listedLength_append, hlen, List.count_cons_of_ne hfar]
      omega

/-- A block with one record, of an entry `a`. -/
def recordBlock (inode : UInt8) (gBlockSize : Nat) : Mem := fun i =>
  if i = 0 then inode else if i = 5 then UInt8.ofNat (gBlockSize / 256)
  else if i = 6 then 1 else if i = 8 then 0x61 else 0

theorem recordBlock_entries (inode : UInt8)
    (hbs : gBlockSize = 1024 ∨ gBlockSize = 2048 ∨ gBlockSize = 4096) :
    EntriesAt (recordBlock inode gBlockSize) gBlockSize 0 [⟨inode.toNat, 0, [0x61]⟩] := by
  have hentry : readDirEntry (recordBlock inode gBlockSize) 0 = ⟨inode.toNat, 0, [0x61]⟩ := by
    have hino : entryInode (recordBlock inode gBlockSize) 0 = inode.toNat := by
      simp [entryInode, load32, recordBlock]
    rw [readDirEntry, hino]
    rfl
  have hrec : entryRecLen (recordBlock inode gBlockSize) 0 = gBlockSize := by
    rcases hbs with rfl | rfl | rfl <;> rfl
  have hnul : (0 : UInt8) ∉ [0x61] := by decide
  refine .cons gBlockSize hrec hentry ?_ (Nat.zero_add _).le hnul ?_
  · have hlen : entryNameLen (recordBlock inode gBlockSize) 0 = 1 := rfl
    omega
  · rw [Nat.zero_add]
    exact .done

section
variable {L : Layout} {fs : FileSystem} {disk : Disk} {heap : MemoryState} {dir : Nat} {ino : Mem}
  {entries : List DirEntry} (hd : DirectoryHolds fs disk dir ino entries)
include hd

/-- The directory with one record in a block that the commands do not reach. -/
theorem DirectoryHolds.replace (hblk : blk < blockCountOf fs ino)
    (hid : fileBlock (placedBlock fs disk) ino blk = far) (hz : far ≠ 0)
    (hind : 12 < blockCountOf fs ino → far ≠ iBlock ino 12) (hfar : ¬ InReach fs far) :
    ∃ rest times, 0 < times ∧ ∀ inode : UInt8, ∃ disk' entries', Alike fs disk disk' ∧
      DirectoryHolds fs disk' dir ino entries' ∧
      listedLength entries' = rest + times * listedLength [⟨inode.toNat, 0, [0x61]⟩] := by
  have hbs := hd.block_size
  obtain ⟨rest, hrest⟩ := hd.blocks.replace hz
  have hmem := List.mem_map.2 ⟨blk, List.mem_range.2 hblk, hid⟩
  refine ⟨rest, _, List.count_pos_iff.2 hmem, fun inode => ?_⟩
  let b := recordBlock inode fs.gBlockSize
  have halike : Alike fs disk (replaceBlock fs disk far b) := alike_replaced hbs disk hfar b
  have hother : ∀ blockId, blockId ≠ far → SameOn (placedBlock fs disk blockId)
      (placedBlock fs (replaceBlock fs disk far b) blockId) 0 fs.gBlockSize :=
    fun _ hne => placedBlock_replaced_other hbs disk hne b
  obtain ⟨es', hes', hlen⟩ := hrest _ _ hother
    ((recordBlock_entries inode hbs).congr (placedBlock_replaced fs disk far b))
  refine ⟨_, es', halike, ⟨hbs, hd.number, ?_, hd.directory, hd.reach, hd.indirect, ?_⟩, hlen⟩
  · rw [halike.readInode]
    exact hd.read
  · have hids : (List.range (blockCountOf fs ino)).map
        (fileBlock (placedBlock fs (replaceBlock fs disk far b)) ino) =
          (List.range (blockCountOf fs ino)).map (fileBlock (placedBlock fs disk) ino) :=
      List.map_congr_left fun c hc => fileBlock_same
        (fun hlt _ => hother _ (hind hlt).symm) hd.count_le (List.mem_range.1 hc)
    rw [hids]
    exact hes'

/-- The directory with an indirect block out of reach that names one block. -/
theorem DirectoryHolds.naming (hlt : 12 < blockCountOf fs ino) (hne : iBlock ino 12 ≠ 0)
    (hsep : ∀ b < 12, iBlock ino b ≠ iBlock ino 12) (hfar : ¬ InReach fs (iBlock ino 12)) :
    ∃ direct, ∀ blockId ≤ 0x100000, ∀ {es},
      BlocksHold (placedBlock fs (namingDisk fs disk ino blockId)) fs.gBlockSize [blockId] es →
      DirectoryHolds fs (namingDisk fs disk ino blockId) dir ino (direct ++ es) := by
  have hbs := hd.block_size
  have hcount := hd.count_le
  obtain ⟨m, hm⟩ : ∃ m, blockCountOf fs ino = 12 + (m + 1) := ⟨blockCountOf fs ino - 13, by omega⟩
  have hblocks := hd.blocks
  rw [hm, List.range_add, List.map_append] at hblocks
  obtain ⟨direct, -, -, hdirect, -⟩ := hblocks.split
  refine ⟨direct, fun blockId hid es hes => ?_⟩
  have halike : Alike fs disk (namingDisk fs disk ino blockId) :=
    alike_replaced hbs disk hfar _
  refine ⟨hbs, hd.number, halike.readInode ▸ hd.read, hd.directory, hd.reach, hd.indirect, ?_⟩
  rw [hm, List.range_add, List.map_append]
  refine .append ?_ ?_
  · have hids : (List.range 12).map
        (fileBlock (placedBlock fs (namingDisk fs disk ino blockId)) ino) =
          (List.range 12).map (fileBlock (placedBlock fs disk) ino) :=
      List.map_congr_left fun b hb => by
        have hlt := List.mem_range.1 hb
        rw [fileBlock_direct hlt, fileBlock_direct hlt]
    rw [hids]
    refine hdirect.congr fun other hmem _ => ?_
    obtain ⟨b, hb, rfl⟩ := List.mem_map.1 hmem
    have hlt := List.mem_range.1 hb
    rw [fileBlock_direct hlt]
    exact placedBlock_replaced_other hbs disk (hsep b hlt) _
  · have hnamed : ∀ b < m + 1,
        fileBlock (placedBlock fs (namingDisk fs disk ino blockId)) ino (12 + b) =
          if 12 + b = 12 then blockId else 0 :=
      fun b hb => namingDisk_block fs disk hne (by omega) (by omega) (by omega)
    rw [List.range_succ_eq_map, List.map_cons, List.map_cons, hnamed 0 (Nat.succ_pos m),
      if_pos rfl]
    refine hes.append_holes fun other hmem => ?_
    simp only [List.map_map, List.mem_map, Function.comp_apply] at hmem
    obtain ⟨b, hb, rfl⟩ := hmem
    have := List.mem_range.1 hb
    rw [hnamed _ (by omega), if_neg (by omega)]

omit hd in
/-- Directories that are listed exactly, from drives that are read alike, have equal lists. -/
theorem ScannersAgree.same_listing (h : ScannersAgree L fs disk heap dir entries)
    (h' : ScannersAgree L fs disk' heap dir entries') (halike : Alike fs disk disk') :
    listedLength entries = listedLength entries' := by
  obtain ⟨st, hst, hvga, -⟩ := h.ls zeroed zeroed ⟨[], []⟩
  obtain ⟨st', hst', hvga', -⟩ := h'.ls zeroed zeroed ⟨[], []⟩
  rw [halike.ext2Ls, hst] at hst'
  cases hst'
  rw [listedLength, listedLength, ← List.nil_append (List.flatMap _ (entries.filter _)),
    ← List.nil_append (List.flatMap _ (entries'.filter _))]
  exact congrArg List.length (hvga.symm.trans hvga')

section
variable (h : ∀ disk' entries', Alike fs disk disk' → DirectoryHolds fs disk' dir ino entries' →
  ScannersAgree L fs disk' heap dir entries')
include h

/-- The listing of a block out of reach is the same whatever the block holds. -/
theorem DirectoryHolds.block_in_reach (hblk : blk < blockCountOf fs ino)
    (hid : fileBlock (placedBlock fs disk) ino blk = far) (hz : far ≠ 0)
    (hind : 12 < blockCountOf fs ino → far ≠ iBlock ino 12) : InReach fs far := by
  by_contra hfar
  obtain ⟨rest, times, hpos, hdrives⟩ := hd.replace hblk hid hz hind hfar
  obtain ⟨disk₀, entries₀, halike₀, hd₀, hlen₀⟩ := hdrives 0
  obtain ⟨disk₁, entries₁, halike₁, hd₁, hlen₁⟩ := hdrives 1
  have hsame := (h disk₀ entries₀ halike₀ hd₀).same_listing (h disk₁ entries₁ halike₁ hd₁)
    (halike₀.symm.trans halike₁)
  have hdead : listedLength [⟨(0 : UInt8).toNat, 0, [0x61]⟩] = 0 := by decide
  have hlive : listedLength [⟨(1 : UInt8).toNat, 0, [0x61]⟩] = 8 := by decide
  rw [hlen₀, hlen₁, hdead, hlive] at hsame
  omega

/-- The listing is the same whether an indirect block out of reach names nothing or again one of
the direct blocks. -/
theorem DirectoryHolds.indirect_in_reach (hlt : 12 < blockCountOf fs ino)
    (hne : iBlock ino 12 ≠ 0) (htells : IndirectTells fs disk ino) :
    InReach fs (iBlock ino 12) := by
  by_contra hfar
  obtain ⟨hsep, b, hb, hz, es, hes, e, he, hlive⟩ := htells
  obtain ⟨direct, hnaming⟩ := hd.naming hlt hne hsep hfar
  have halike : ∀ blockId, Alike fs disk (namingDisk fs disk ino blockId) :=
    fun _ => alike_replaced hd.block_size disk hfar _
  have hle : iBlock ino b ≤ 0x100000 := by
    apply hd.blocks.ids_le
    rw [← fileBlock_direct hb]
    exact List.mem_map_of_mem (List.mem_range.2 (by omega))
  have hsame := placedBlock_replaced_other hd.block_size disk (hsep b hb)
    (store32 zeroed 0 (iBlock ino b))
  have h₀ := hnaming 0 (Nat.zero_le _) (.hole .nil)
  have h₁ := hnaming (iBlock ino b) hle (.block hz hle (hes.congr hsame) .nil)
  have hlen := (h _ _ (halike 0) h₀).same_listing (h _ _ (halike _) h₁)
    ((halike 0).symm.trans (halike _))
  rw [List.append_nil, List.append_nil, listedLength_append] at hlen
  have hpos := listedLength_pos he hlive
  omega

end

end

/-- A drive with an ext2 partition of 1 KiB blocks that starts 16 sectors in front of LBA 2 ^ 28.
The root directory has block 8, of LBA 2 ^ 28, with the entry `f`; the file `f`, inode 12, has block
9 with `Hi`. -/
def farImage : Disk := sparseDisk <|
  [(450, 0x83), (454, 0xF0), (455, 0xFF), (456, 0xFF), (457, 0x0F), (510, 0x55), (511, 0xAA)] ++
  [(1024, 16), (1044, 1), (1064, 16), (1080, 0x53), (1081, 0xEF), (2056, 5),
    (5248, 0xED), (5249, 0x41), (5253, 0x04), (5288, 8), (6528, 0xA4), (6529, 0x81), (6532, 2),
    (6568, 9), (8192, 12), (8197, 0x04), (8198, 1), (8199, 1), (8200, 0x66),
    (9216, 0x48), (9217, 0x69)].map fun b => (0x0FFFFFF0 * 512 + b.1, b.2)

end KernelCustom
