import OsArm.Base
import OsArm.Lib.Bits

/-!
# AbyssFS (`abyssfs.c`): data model and operations

The block array is byte memory addressed from `abyssfs.blocks`: block `b` is the
4096 bytes from `b * 4096` on.  Directory records, their lengths and the bytes
of files live there exactly as in the source.  The inode table, which the source
keeps in blocks 1 to 8 and reaches through `get_inode` only, is a separate table
of inodes; an `struct abyssfs_inode *` is the inode's number.

Functions that answer `-1`/`NULL` after having changed something return the
changed state as well.  Console output is left out.
-/

namespace OsArm

open BitSet

/-! ## Constants -/

/-- `BLOCK_SIZE`. -/
def blockSize : Nat := 4096

/-- `abyssfs.sb.total_blocks`. -/
def totalBlocks : Nat := 64

/-- `abyssfs.sb.inode_blocks`. -/
def inodeBlocks : Nat := 8

/-- `abyssfs.sb.first_data_block`. -/
def firstDataBlock : Nat := inodeBlocks + 1

/-- The block of the root directory, `abyssfs.sb.inode_blocks + 1`. -/
def rootBlock : Nat := inodeBlocks + 1

/-- `inode_blocks * BLOCK_SIZE / sizeof(struct abyssfs_inode)`, an inode being 64 bytes. -/
def maxInodes : Nat := inodeBlocks * blockSize / 64

/-- The number of an inode is stored in 32 bits. -/
theorem inode_lt_two_pow {i : Nat} (h : i < maxInodes) : i < 2 ^ 32 := by
  simp only [maxInodes, inodeBlocks, blockSize] at h
  omega

/-- `ABYSSFS_DIR_ENTRY_FIXED_SIZE`. -/
def dirEntryFixedSize : Nat := 6

/-- A bound for walks and string reads: the block array lies inside the heap. -/
def walkFuel : Nat := heapSize

/-! ## State -/

/-- `struct abyssfs_inode`, without the fields nothing reads. -/
structure Inode where
  mode : BitVec 32
  size : Nat
  blocks : Nat
  deriving DecidableEq

/-- An inode after `memset(inode, 0, sizeof(struct abyssfs_inode))`. -/
def Inode.zero : Inode := { mode := 0, size := 0, blocks := 0 }

/-- The file system: block array, inode table, `block_bitmap` and
`abyssfs.sb.free_blocks`. -/
structure AbyssFs where
  blocks : ByteMem
  inodes : Nat → Inode
  blockBitmap : BitVec 64
  freeBlocks : Nat

/-- Overwrite one inode. -/
def AbyssFs.setInode (fs : AbyssFs) (n : Nat) (node : Inode) : AbyssFs :=
  { fs with inodes := fun k => if k = n then node else fs.inodes k }

/-! ## Directory records

A record is `inode` (4 bytes), `name_len`, `rec_len` (one byte each) and the
name with its terminator. -/

/-- `round_up`, computed in `int` and cut back to `uint8_t`. -/
def roundUp (val align : Nat) : Nat :=
  (((val % 256 + align % 256 - 1) &&& ((2 ^ 32 - 1) ^^^ (align % 256 - 1))) % 256)

/-- `entry->name_len`. -/
def nameLen (m : ByteMem) (entry : Nat) : Nat := (m (entry + 4)).toNat

/-- `entry->rec_len`. -/
def recLen (m : ByteMem) (entry : Nat) : Nat := (m (entry + 5)).toNat

/-- The address of `entry->name`. -/
def nameAddr (entry : Nat) : Nat := entry + dirEntryFixedSize

/-- `rec_len` of a record that is as long as its name needs. -/
def minRecLen (len : Nat) : Nat := roundUp (dirEntryFixedSize + len + 1) 4

/-- The four stores that build the records `"."` and `".."`. -/
def putEntry (m : ByteMem) (entry inode len rec : Nat) (name : Str) : ByteMem :=
  strcpy (((m.setWord entry inode).set (entry + 4) (UInt8.ofNat len)).set (entry + 5)
    (UInt8.ofNat rec)) (nameAddr entry) name

/-- The records every directory starts with.  The length of `".."` is
`BLOCK_SIZE - rec_len`, stored in one byte. -/
def putDots (m : ByteMem) (dir self : Nat) : ByteMem :=
  let rec_len := minRecLen 1
  let m := putEntry m dir self 1 rec_len (str ['.'])
  putEntry m (dir + rec_len) 1 2 (blockSize - rec_len) (str ['.', '.'])

/-- The walk of `abyssfs_unlink` and of `get_inode_by_path`: the first record
from `dir` on whose name is `name`. -/
def findEntry (m : ByteMem) (name : Str) : Nat → Nat → Option Nat
  | 0, _ => none
  | fuel + 1, dir =>
    if recLen m dir > 0 then
      if strcmp m (nameAddr dir) name = 0 then some dir
      else findEntry m name fuel (dir + recLen m dir)
    else none

/-- The walk of `abyssfs_read_dir`, with room for `n` more entries. -/
def readEntries (m : ByteMem) : Nat → Nat → List Dirent
  | 0, _ => []
  | n + 1, dir =>
    if recLen m dir > 0 then
      { inode := m.word dir, name := m.cstring walkFuel (nameAddr dir) } ::
        readEntries m n (dir + recLen m dir)
    else []

/-- The walk of `create_file`: where it stops, and the last record it passed. -/
def lastEntry (m : ByteMem) (blockEnd : Nat) : Nat → Nat → Option Nat → Nat × Option Nat
  | 0, entry, prev => (entry, prev)
  | fuel + 1, entry, prev =>
    if entry < blockEnd ∧ recLen m entry > 0 then
      lastEntry m blockEnd fuel (entry + recLen m entry) (some entry)
    else (entry, prev)

/-! ## Blocks and inodes -/

/-- `get_block`: the address of a block. -/
def getBlock (blockNum : Nat) : Option Nat :=
  if blockNum ≥ totalBlocks then none else some (blockNum * blockSize)

/-- A block ends far below the end of the address space. -/
theorem block_end_lt {b : Nat} (h : b < totalBlocks) : b * blockSize + blockSize < 2 ^ 64 := by
  have hle := Nat.mul_le_mul_right blockSize (Nat.le_of_lt h)
  rw [totalBlocks, blockSize] at hle
  rw [blockSize]
  omega

/-- `alloc_block`: the first data block whose bit is clear, 0 if there is none. -/
def allocBlock (fs : AbyssFs) : Nat × AbyssFs :=
  match (List.range' firstDataBlock (totalBlocks - firstDataBlock)).find?
      (fun i => fs.blockBitmap &&& bit 64 i = 0#64) with
  | some i => (i, { fs with
      blockBitmap := fs.blockBitmap ||| bit 64 i
      freeBlocks := (fs.freeBlocks + (2 ^ 32 - 1)) % 2 ^ 32 })
  | none => (0, fs)

/-- `free_block`. -/
def freeBlock (fs : AbyssFs) (blockNum : Nat) : AbyssFs :=
  if blockNum < totalBlocks then
    { fs with
      blockBitmap := fs.blockBitmap &&& ~~~bit 64 blockNum
      freeBlocks := (fs.freeBlocks + 1) % 2 ^ 32 }
  else fs

/-- `get_inode`. -/
def getInode (fs : AbyssFs) (inodeNum : Nat) : Option Inode :=
  if inodeNum ≥ maxInodes then none else some (fs.inodes inodeNum)

/-- `alloc_inode`: the first inode from 1 on with mode 0, 0 if there is none. -/
def allocInode (fs : AbyssFs) : Nat × AbyssFs :=
  match (List.range' 1 (maxInodes - 1)).find? (fun i => (fs.inodes i).mode = 0) with
  | some i => (i, fs.setInode i { Inode.zero with mode := 0x1FF })
  | none => (0, fs)

/-! ## Initialisation -/

/-- `abyssfs_init`, the allocated memory holding the bytes `m`. -/
def abyssfsInit (m : ByteMem) : AbyssFs :=
  let blocks := memset m 0 0 (blockSize * totalBlocks)
  let bitmap := (List.range (inodeBlocks + 1)).foldl (fun b i => b ||| bit 64 i) 0#64
  { blocks := putDots blocks (rootBlock * blockSize) 1
    inodes := fun n =>
      if n = 1 then { mode := 0x4000, size := blockSize, blocks := rootBlock } else Inode.zero
    blockBitmap := bitmap ||| bit 64 rootBlock
    freeBlocks := totalBlocks - inodeBlocks - 1 }

/-! ## Path resolution -/

/-- The token loop of `get_inode_by_path`, standing at inode `inode`. -/
def walkPath (fs : AbyssFs) : Nat → Nat → Str → Option Nat
  | 0, _, _ => none
  | fuel + 1, inode, save =>
    match strtokR save [slash] with
    | none => some inode
    | some (token, save) =>
      let dirBlock := (fs.inodes inode).blocks
      if dirBlock = 0 then none
      else
        match (getBlock dirBlock).bind (findEntry fs.blocks token walkFuel) with
        | none => none
        | some dir =>
          match getInode fs (fs.blocks.word dir) with
          | none => none
          | some _ => walkPath fs fuel (fs.blocks.word dir) save

/-- `get_inode_by_path`; the copy of the path is cut at 255 bytes. -/
def getInodeByPath (fs : AbyssFs) (path : Str) : Option Nat :=
  let path := path.dropWhile (· = slash)
  if path = [] then some 1 else walkPath fs 256 1 (path.take 255)

/-! ## Creating -/

/-- The directory `create_file` works in. -/
def createDir (fs : AbyssFs) (cwd : Str) : Option Nat :=
  if cwd ≠ [slash] then getInodeByPath fs (cwd.drop 1) else some 1

/-- The record `create_file` writes at `entry`. -/
def writeEntry (m : ByteMem) (entry inodeNum : Nat) (name : Str) : ByteMem :=
  let len := name.length % 256
  let m := m.setWord entry inodeNum
  let m := m.set (entry + 4) (UInt8.ofNat len)
  let m := m.set (entry + 5) (UInt8.ofNat (minRecLen len))
  let m := memcpyTo m (nameAddr entry) name len
  m.set (nameAddr entry + len) 0

/-- Shrink the record `prev` to its minimal length and clear the rest of the
block behind it; the length of the `memset` is a `size_t`. -/
def shrinkEntry (m : ByteMem) (prev blockEnd : Nat) : ByteMem :=
  let prevMin := minRecLen (nameLen m prev)
  let m := m.set (prev + 5) (UInt8.ofNat prevMin)
  memset m (prev + prevMin) 0 ((2 ^ 64 + blockEnd - (prev + prevMin)) % 2 ^ 64)

/-- `create_file(name, inode_num)` for a process whose directory is `cwd`. -/
def createFile (fs : AbyssFs) (cwd name : Str) (inodeNum : Nat) : Int × AbyssFs :=
  match createDir fs cwd with
  | none => (-1, fs)
  | some dirInode =>
    let blocks := (fs.inodes dirInode).blocks
    if blocks = 0 ∧ dirInode ≠ 1 then (-1, fs)
    else
      let blockStart := (if blocks = 0 then rootBlock else blocks) * blockSize
      let blockEnd := blockStart + blockSize
      match (lastEntry fs.blocks blockEnd blockSize blockStart none).2 with
      | some prev =>
        let entry := prev + minRecLen (nameLen fs.blocks prev)
        (0, { fs with
          blocks := writeEntry (shrinkEntry fs.blocks prev blockEnd) entry inodeNum
            (basename name) })
      | none =>
        (0, { fs with blocks := writeEntry fs.blocks blockStart inodeNum (basename name) })

/-- `abyssfs_create`. -/
def abyssfsCreate (heap : Heap) (fs : AbyssFs) (cwd path : Str) :
    Option VfsFile × Heap × AbyssFs :=
  let path := path.dropWhile (· = slash)
  let (inodeNum, fs) := allocInode fs
  if inodeNum = 0 then (none, heap, fs)
  else
    let (ret, fs) := createFile fs cwd path inodeNum
    if ret < 0 then (none, heap, fs)
    else
      match kalloc heap sizeofVfsFile with
      | none => (none, heap, fs)
      | some (_, heap) =>
        (some { fOps := .abyssfs, privateData := inodeNum, fPos := 0 }, heap, fs)

/-- The stores by which `abyssfs_mkdir` makes a directory of a fresh inode and a
fresh block. -/
def initDir (fs : AbyssFs) (inodeNum dirBlock : Nat) : AbyssFs :=
  let node := fs.inodes inodeNum
  let fs := fs.setInode inodeNum
    { mode := node.mode ||| 0x4000, size := blockSize, blocks := dirBlock }
  { fs with blocks := putDots fs.blocks (dirBlock * blockSize) inodeNum }

/-- `test_abyssfs`, the last thing `vfs_init` does. -/
def testAbyssfs (fs : AbyssFs) (cwd : Str) : AbyssFs :=
  let (inodeNum, fs) := allocInode fs
  (createFile fs cwd (str ['h', 'e', 'l', 'l', 'o', '.', 't', 'x', 't']) inodeNum).2

/-- `abyssfs_mkdir`. -/
def abyssfsMkdir (fs : AbyssFs) (cwd path : Str) : Int × AbyssFs :=
  let path := path.dropWhile (· = slash)
  let (inodeNum, fs) := allocInode fs
  if inodeNum = 0 then (-1, fs)
  else
    let (dirBlock, fs) := allocBlock fs
    if dirBlock = 0 then (-1, fs)
    else
      let (ret, fs) := createFile (initDir fs inodeNum dirBlock) cwd (basename path) inodeNum
      if ret < 0 then (-1, fs) else (0, fs)

/-! ## Handles -/

/-- `abyssfs_open`: the handle never depends on the path. -/
def abyssfsOpen (heap : Heap) (_path : Str) : Option VfsFile × Heap :=
  match kalloc heap sizeofVfsFile with
  | none => (none, heap)
  | some (_, heap) => (some { fOps := .abyssfs, privateData := 0, fPos := 0 }, heap)

/-- `abyssfs_read`: the bytes delivered (`none` for -1) and the handle after. -/
def abyssfsRead (fs : AbyssFs) (file : VfsFile) (count : Nat) :
    Option (List UInt8) × VfsFile :=
  match getInode fs file.privateData with
  | none => (none, file)
  | some inode =>
    if file.fPos ≥ inode.size then (some [], file)
    else
      let count := if (file.fPos + count) % 2 ^ 64 > inode.size then inode.size - file.fPos
        else count
      (some (memcpyFrom fs.blocks (inode.blocks * blockSize + file.fPos) count),
        { file with fPos := (file.fPos + count) % 2 ^ 64 })

/-- The `memcpy` of `write_to_blocks`. -/
def storeBlock (fs : AbyssFs) (blockNum : Nat) (buf : List UInt8) (count : Nat) : AbyssFs :=
  { fs with blocks := memcpyTo fs.blocks (blockNum * blockSize) buf count }

/-- `write_to_blocks`: the number of bytes written. -/
def writeToBlocks (fs : AbyssFs) (inodeNum : Nat) (buf : List UInt8) : Nat × AbyssFs :=
  let count := if buf.length > blockSize then blockSize else buf.length
  let node := fs.inodes inodeNum
  if node.blocks = 0 then
    let (blockNum, fs) := allocBlock fs
    if blockNum = 0 then (0, fs)
    else
      let fs := fs.setInode inodeNum { node with blocks := blockNum }
      (count, storeBlock fs blockNum buf count)
  else (count, storeBlock fs node.blocks buf count)

/-- `abyssfs_write`; `buf` holds the `count` bytes to be written. -/
def abyssfsWrite (fs : AbyssFs) (file : VfsFile) (buf : List UInt8) : Int × AbyssFs :=
  match getInode fs file.privateData with
  | none => (-1, fs)
  | some _ =>
    let (written, fs) := writeToBlocks fs file.privateData buf
    let node := fs.inodes file.privateData
    if written > 0 then
      (written, fs.setInode file.privateData
        { node with size := (node.size + written) % 2 ^ 32 })
    else (written, fs)

/-! ## Listing and removing -/

/-- `abyssfs_read_dir` with room for `count` entries; `none` for -1. -/
def abyssfsReadDir (fs : AbyssFs) (path : Str) (count : Nat) : Option (List Dirent) :=
  let path := path.dropWhile (· = slash)
  let dirBlock := if path = [] then some rootBlock
    else (getInodeByPath fs path).map fun n => (fs.inodes n).blocks
  match dirBlock.bind getBlock with
  | none => none
  | some dir => some (readEntries fs.blocks count dir)

/-- What `abyssfs_unlink` does to the inode of the record it found. -/
def releaseInode (fs : AbyssFs) (inodeNum : Nat) : AbyssFs :=
  match getInode fs inodeNum with
  | none => fs
  | some inode =>
    let fs := fs.setInode inodeNum { inode with mode := 0 }
    if inode.blocks ≠ 0 then freeBlock fs inode.blocks else fs

/-- What `abyssfs_unlink` does to the root block, the record being at `dir`. -/
def removeEntry (m : ByteMem) (root dir : Nat) : ByteMem :=
  let next := dir + recLen m dir
  if recLen m next > 0 then memmove m dir next ((2 ^ 64 + blockSize - (next - root)) % 2 ^ 64)
  else memset m dir 0 (recLen m dir)

/-- `abyssfs_unlink`. -/
def abyssfsUnlink (fs : AbyssFs) (path : Str) : Int × AbyssFs :=
  let path := path.dropWhile (· = slash)
  let root := rootBlock * blockSize
  match findEntry fs.blocks path walkFuel root with
  | none => (-1, fs)
  | some dir =>
    let fs' := releaseInode fs (fs.blocks.word dir)
    (0, { fs' with blocks := removeEntry fs'.blocks root dir })

/-- `abyssfs_remove_recursive`, `fuel` bounding the depth of the recursion; `none`
when it goes deeper, or when the path of an entry overruns the buffer `full_path`. -/
def abyssfsRemoveRecursive : Nat → AbyssFs → Str → Option (Int × AbyssFs)
  | 0, _, _ => none
  | fuel + 1, fs, path => do
    let entries := (abyssfsReadDir fs path 256).getD []
    let fs ← entries.foldlM (fun fs e =>
      if e.name = str ['.'] ∨ e.name = str ['.', '.'] then some fs
      else
        let fullPath := path ++ [slash] ++ e.name
        if fullPath.length ≥ vfsMaxPath then none
        else
          match getInode fs e.inode with
          | some inode =>
            if inode.mode &&& 0x4000 ≠ 0 then (abyssfsRemoveRecursive fuel fs fullPath).map Prod.snd
            else some (abyssfsUnlink fs fullPath).2
          | none => some (abyssfsUnlink fs fullPath).2) fs
    some (abyssfsUnlink fs path)

end OsArm
