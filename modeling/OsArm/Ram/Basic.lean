import OsArm.Base

/-!
# RAMFS (`ramfs.c`): data model and operations

A `struct ramfs_file` is byte memory of its own, `path` at 0 and `content` at
32, with the two scalar fields beside it; a path that is too long runs over into
`content` as it does in the source (the buffer `full_path` of `ramfs_create`,
which it would overrun first, is not modelled).  A `struct ramfs_file *` is the
index into `files`.  Console output is left out.

The scans over `files` are `findUsed` (`ramfs_open`, `ramfs_unlink`) and
`findFree` (the three creators).
-/

namespace OsArm

/-! ## Constants -/

/-- `MAX_FILES`. -/
def maxFiles : Nat := 16

/-- `MAX_PATH`. -/
def maxPath : Nat := 32

/-- `MAX_CONTENT`. -/
def maxContent : Nat := 4096

/-- The offset of `content`. -/
def contentOff : Nat := maxPath

/-- `"/tmp/"`. -/
def tmpSlash : Str := str ['/', 't', 'm', 'p', '/']

/-- `"/tmp"`. -/
def tmpDir : Str := str ['/', 't', 'm', 'p']

/-! ## State -/

/-- `struct ramfs_file`. -/
structure RamfsFile where
  mem : ByteMem
  size : Nat
  used : Bool

/-- `files`. -/
structure RamFs where
  files : Nat → RamfsFile

/-- Overwrite one slot. -/
def RamFs.setFile (ram : RamFs) (i : Nat) (f : RamfsFile) : RamFs :=
  { files := fun k => if k = i then f else ram.files k }

/-- `ramfs_init`. -/
def ramfsInit : RamFs := { files := fun _ => { mem := fun _ => 0, size := 0, used := false } }

/-! ## Scans -/

/-- The first used slot with the path. -/
def findUsed (ram : RamFs) (path : Str) : Option Nat :=
  (List.range maxFiles).find? fun i => (ram.files i).used ∧ strcmp (ram.files i).mem 0 path = 0

/-- The first slot that is not used. -/
def findFree (ram : RamFs) : Option Nat :=
  (List.range maxFiles).find? fun i => ¬ (ram.files i).used

/-! ## Creating -/

/-- The copy loops of `ramfs_create_file`: at most `limit` bytes, then the terminator. -/
def copyBounded (m : ByteMem) (dst : Nat) : Nat → Str → ByteMem
  | 0, _ => m.set dst 0
  | _ + 1, [] => m.set dst 0
  | limit + 1, c :: cs => copyBounded (m.set dst c) (dst + 1) limit cs

/-- `ramfs_create_file`. -/
def ramfsCreateFile (ram : RamFs) (path content : Str) : Int × RamFs :=
  match findFree ram with
  | none => (-1, ram)
  | some i =>
    let mem := copyBounded (ram.files i).mem 0 (maxPath - 1) path
    let mem := copyBounded mem contentOff (maxContent - 1) content
    (0, ram.setFile i { mem := mem, size := min content.length (maxContent - 1), used := true })

/-- `full_path` in `ramfs_create`, which has `MAX_PATH` bytes for it. -/
def ramfsFullPath (path : Str) : Str :=
  if strncmp path tmpSlash 5 ≠ 0 then tmpSlash ++ path else path

/-- `ramfs_create`. -/
def ramfsCreate (heap : Heap) (ram : RamFs) (path : Str) : Option VfsFile × Heap × RamFs :=
  match findFree ram with
  | none => (none, heap, ram)
  | some i =>
    let mem := (strcpy (ram.files i).mem 0 (ramfsFullPath path)).set contentOff 0
    match kalloc heap sizeofVfsFile with
    | none => (none, heap, ram.setFile i { mem := mem, size := 0, used := false })
    | some (_, heap) =>
      (some { fOps := .ramfs, privateData := i, fPos := 0 }, heap,
        ram.setFile i { mem := mem, size := 0, used := true })

/-- `ramfs_mkdir`. -/
def ramfsMkdir (ram : RamFs) (path : Str) : Int × RamFs :=
  match findFree ram with
  | none => (-1, ram)
  | some i =>
    (0, ram.setFile i { mem := strcpy (ram.files i).mem 0 path, size := 0, used := true })

/-! ## Opening and removing -/

/-- `ramfs_open`. -/
def ramfsOpen (heap : Heap) (ram : RamFs) (path : Str) : Option VfsFile × Heap :=
  match findUsed ram path with
  | none => (none, heap)
  | some i =>
    match kalloc heap sizeofVfsFile with
    | none => (none, heap)
    | some (_, heap) => (some { fOps := .ramfs, privateData := i, fPos := 0 }, heap)

/-- `ramfs_unlink`. -/
def ramfsUnlink (ram : RamFs) (path : Str) : Int × RamFs :=
  match findUsed ram path with
  | none => (-1, ram)
  | some i => (0, ram.setFile i { ram.files i with size := 0, used := false })

/-! ## Reading and writing

Positions and sizes are `size_t`, their sums and differences are formed in 64 bits. -/

/-- `ramfs_read`: the bytes delivered and the handle after. -/
def ramfsRead (ram : RamFs) (file : VfsFile) (count : Nat) : List UInt8 × VfsFile :=
  let rf := ram.files file.privateData
  if file.fPos ≥ rf.size then ([], file)
  else
    let count := if (file.fPos + count) % 2 ^ 64 > rf.size then rf.size - file.fPos else count
    (memcpyFrom rf.mem (contentOff + file.fPos) count,
      { file with fPos := (file.fPos + count) % 2 ^ 64 })

/-- `ramfs_write`: the number returned, the handle and the files after. -/
def ramfsWrite (ram : RamFs) (file : VfsFile) (buf : List UInt8) : Nat × VfsFile × RamFs :=
  let rf := ram.files file.privateData
  let count := if (file.fPos + buf.length) % 2 ^ 64 > maxContent then
    (2 ^ 64 + maxContent - file.fPos) % 2 ^ 64 else buf.length
  if count > 0 then
    let pos := (file.fPos + count) % 2 ^ 64
    (count, { file with fPos := pos }, ram.setFile file.privateData { rf with
      mem := memcpyTo rf.mem (contentOff + file.fPos) buf count
      size := if pos > rf.size then pos else rf.size })
  else (count, file, ram)

/-! ## Listing -/

/-- The path of a slot. -/
def RamfsFile.path (f : RamfsFile) : Str := f.mem.cstring (maxPath + maxContent) 0

/-- `is_file_in_dir`. -/
def isFileInDir (filePath dirPath : Str) : Bool :=
  if strncmp filePath dirPath dirPath.length = 0 then
    if dirPath = tmpDir then
      if filePath[dirPath.length]? ≠ some slash then false
      else (strrchr slash (filePath.drop (dirPath.length + 1))).isNone
    else
      match strrchr slash filePath with
      | none => false
      | some lastSlash => filePath.length - lastSlash.length = dirPath.length
  else false

/-- `ramfs_read_dir` with room for `count` entries; it never fails. -/
def ramfsReadDir (ram : RamFs) (path : Str) (count : Nat) : List Dirent :=
  let files := (List.range maxFiles).filterMap fun i =>
    if (ram.files i).used ∧ isFileInDir (ram.files i).path path then
      some { inode := i + 2, name := basename (ram.files i).path : Dirent }
    else none
  ({ inode := 1, name := str ['.'] } :: { inode := 1, name := str ['.', '.'] } :: files).take count

end OsArm
