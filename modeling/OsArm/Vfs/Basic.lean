import OsArm.Abyss.Basic
import OsArm.Ram.Basic

/-!
# The VFS and process namespaces (`vfs.c`, `namespace.c`)

Each entry point that takes a path first decides which file system gets which
path; that decision is a definition of its own (`createTarget`, `openTarget`,
`unlinkTarget`, `mkdirTarget`, `removeRecursiveTarget`, `readDirTarget`), and
the entry point hands the path on.

Paths are taken to fit their buffers of 256 bytes.  The last byte of an empty
string, which `resolve_namespace_path` and the joining of `cwd` look at, lies
outside of it: for the resolver it is the parameter `before`, for `cwd` it is
taken not to be a slash.  Console output is left out.
-/

namespace OsArm

/-! ## State -/

/-- `struct mount`; `sb` is not read. -/
structure Mount where
  path : Str
  fs : FsType
  deriving DecidableEq

/-- `struct namespace` of a list of bindings; `flags` is not read. -/
structure Binding where
  oldPath : Str
  newPath : Str
  old_nul : NulFree oldPath
  new_nul : NulFree newPath
  deriving DecidableEq

/-- `MAX_FD`. -/
def maxFd : Nat := 32

/-- The VFS and what it uses: `mount_points`, `fd_table`, `next_fd`, and of the
current process `cwd` and `ns.mounts`. -/
structure Vfs where
  heap : Heap
  abyss : AbyssFs
  ram : RamFs
  mounts : List Mount
  fdTable : Nat → Option VfsFile
  nextFd : Nat
  cwd : Str
  ns : List Binding

/-- The mounts of `vfs_init`. -/
def bootMounts : List Mount :=
  [{ path := [slash], fs := .abyssfs }, { path := tmpDir, fs := .ramfs }]

/-- `sizeof(struct vfs_super_block)`. -/
def sizeofSuperBlock : Nat := 32

/-- After `vfs_init`, with the block array where the bytes `m` were: it is the
first to use the heap, and runs while `process_init` has left `"/"` at the
address of `cwd`.  The process has the directory `cwd` afterwards. -/
def vfsInit (m : ByteMem) (cwd : Str) : Vfs where
  heap := Heap.mk (blockSize * totalBlocks + 2 * sizeofSuperBlock)
  abyss := testAbyssfs (abyssfsInit m) [slash]
  ram := ramfsInit
  mounts := bootMounts
  fdTable := fun _ => none
  nextFd := 0
  cwd := cwd
  ns := []

/-! ## Where a path leads -/

/-- The loop of `find_mount`: the longest mount path so far that is a prefix. -/
def bestMount (path : Str) : List Mount → Option Mount → Nat → Option Mount
  | [], best, _ => best
  | mp :: mounts, best, bestLen =>
    if strncmp path mp.path mp.path.length = 0 ∧ mp.path.length > bestLen then
      bestMount path mounts (some mp) mp.path.length
    else bestMount path mounts best bestLen

/-- `find_mount`. -/
def findMount (mounts : List Mount) (path : Str) : Option Mount :=
  if path = [] ∨ path = [slash] then mounts.head? else bestMount path mounts none 0

/-- `full_path`: a relative path is joined with `cwd`. -/
def joinCwd (cwd path : Str) : Str :=
  if path.head? ≠ some slash then
    (if cwd.getLast? ≠ some slash then cwd ++ [slash] else cwd) ++ path
  else path

/-- `resolve_path`. -/
def resolvePath (path : Str) : List Binding → Str
  | [] => path
  | b :: ns =>
    if strncmp path b.oldPath b.oldPath.length = 0 then b.newPath ++ path.drop b.oldPath.length
    else resolvePath path ns

/-- What `resolve_namespace_path` puts together for a binding: a separator comes
in when neither side has one. -/
def rewriteNew (before : UInt8) (b : Binding) (path : Str) : Str :=
  let rest := path.drop b.newPath.length
  if rest ≠ [] ∧ rest.head? ≠ some slash ∧ b.oldPath.getLast?.getD before ≠ slash then
    b.oldPath ++ [slash] ++ rest
  else b.oldPath ++ rest

/-- `resolve_namespace_path`. -/
def resolveNamespacePath (before : UInt8) (heap : Heap) (path : Str) : List Binding → Str × Heap
  | [] => (path, heap)
  | b :: ns =>
    if strncmp path b.newPath b.newPath.length = 0 then
      match kalloc heap vfsMaxPath with
      | none => (path, heap)
      | some (_, heap) => (rewriteNew before b path, heap)
    else resolveNamespacePath before heap path ns

/-! ## What each entry point selects -/

/-- `vfs_create`. -/
def createTarget (mounts : List Mount) (cwd path : Str) : Option (FsType × Str) :=
  let fullPath := joinCwd cwd path
  if strncmp fullPath tmpSlash 5 = 0 ∨ fullPath = tmpDir then some (.ramfs, fullPath)
  else (findMount mounts fullPath).map fun mp => (mp.fs, fullPath)

/-- `vfs_open`; `resolve_path` does not fail. -/
def openTarget (ns : List Binding) (path : Str) : FsType × Str :=
  let resolved := resolvePath path ns
  (if strncmp resolved tmpSlash 5 = 0 then .ramfs else .abyssfs, resolved)

/-- `vfs_unlink`. -/
def unlinkTarget (mounts : List Mount) (cwd path : Str) : Option (FsType × Str) :=
  (findMount mounts (joinCwd cwd path)).map fun mp => (mp.fs, path)

/-- `vfs_mkdir`. -/
def mkdirTarget (mounts : List Mount) (cwd path : Str) : Option (FsType × Str) :=
  let fullPath := joinCwd cwd path
  (findMount mounts fullPath).map fun mp => (mp.fs, fullPath)

/-- Whether `remove_recursive` of the file system is not `NULL`. -/
def FsType.hasRemoveRecursive : FsType → Bool
  | .abyssfs => true
  | .ramfs => false

/-- `vfs_remove_recursive`. -/
def removeRecursiveTarget (mounts : List Mount) (cwd path : Str) : Option (FsType × Str) :=
  let fullPath := joinCwd cwd path
  match findMount mounts fullPath with
  | none => none
  | some mp => if ¬ mp.fs.hasRemoveRecursive then none else some (mp.fs, fullPath)

/-- `vfs_read_dir`, the path being resolved already. -/
def readDirTarget (mounts : List Mount) (resolved : Str) : Option (FsType × Str) :=
  (findMount mounts resolved).map fun mp => (mp.fs, resolved)

/-! ## Descriptors -/

/-- `alloc_fd`. -/
def allocFd (v : Vfs) (file : VfsFile) : Int × Vfs :=
  if v.nextFd ≥ maxFd then (-1, v)
  else (v.nextFd, { v with
    fdTable := fun k => if k = v.nextFd then some file else v.fdTable k
    nextFd := v.nextFd + 1 })

/-- `get_file`. -/
def getFile (v : Vfs) (fd : Int) : Option VfsFile :=
  if fd < 0 ∨ fd ≥ maxFd then none else v.fdTable fd.toNat

/-- A handle that `get_file` finds is in the table. -/
theorem getFile_eq_some {v : Vfs} {fd : Nat} {file : VfsFile} (h : getFile v fd = some file) :
    v.fdTable fd = some file := by
  unfold getFile at h
  split at h
  · cases h
  · rwa [Int.toNat_natCast] at h

/-- The handle of a descriptor after its position has changed. -/
def Vfs.setFile (v : Vfs) (fd : Int) (file : VfsFile) : Vfs :=
  { v with fdTable := fun k => if k = fd.toNat then some file else v.fdTable k }

/-! ## The entry points -/

/-- `vfs_create`. -/
def vfsCreate (v : Vfs) (path : Str) : Int × Vfs :=
  match createTarget v.mounts v.cwd path with
  | none => (-1, v)
  | some (.ramfs, fullPath) =>
    let (file, heap, ram) := ramfsCreate v.heap v.ram fullPath
    let v := { v with heap := heap, ram := ram }
    match file with
    | none => (-1, v)
    | some file => allocFd v file
  | some (.abyssfs, fullPath) =>
    let (file, heap, abyss) := abyssfsCreate v.heap v.abyss v.cwd fullPath
    let v := { v with heap := heap, abyss := abyss }
    match file with
    | none => (-1, v)
    | some file => allocFd v file

/-- `vfs_open`. -/
def vfsOpen (v : Vfs) (path : Str) : Int × Vfs :=
  let (fs, resolved) := openTarget v.ns path
  let (file, heap) := match fs with
    | .ramfs => ramfsOpen v.heap v.ram resolved
    | .abyssfs => abyssfsOpen v.heap resolved
  let v := { v with heap := heap }
  match file with
  | none => (-1, v)
  | some file => allocFd v file

/-- `vfs_unlink`. -/
def vfsUnlink (v : Vfs) (path : Str) : Int × Vfs :=
  match unlinkTarget v.mounts v.cwd path with
  | none => (-1, v)
  | some (.ramfs, p) =>
    let (ret, ram) := ramfsUnlink v.ram p
    (ret, { v with ram := ram })
  | some (.abyssfs, p) =>
    let (ret, abyss) := abyssfsUnlink v.abyss p
    (ret, { v with abyss := abyss })

/-- `vfs_mkdir`. -/
def vfsMkdir (v : Vfs) (path : Str) : Int × Vfs :=
  match mkdirTarget v.mounts v.cwd path with
  | none => (-1, v)
  | some (.ramfs, p) =>
    let (ret, ram) := ramfsMkdir v.ram p
    (ret, { v with ram := ram })
  | some (.abyssfs, p) =>
    let (ret, abyss) := abyssfsMkdir v.abyss v.cwd p
    (ret, { v with abyss := abyss })

/-- `vfs_remove_recursive`; only AbyssFS has the operation.  `none` when its
recursion goes deeper than `fuel`. -/
def vfsRemoveRecursive (fuel : Nat) (v : Vfs) (path : Str) : Option (Int × Vfs) :=
  match removeRecursiveTarget v.mounts v.cwd path with
  | none | some (.ramfs, _) => some (-1, v)
  | some (.abyssfs, p) =>
    (abyssfsRemoveRecursive fuel v.abyss p).map fun (ret, abyss) => (ret, { v with abyss := abyss })

/-- `vfs_read_dir` with room for `count` entries; `none` for -1. -/
def vfsReadDir (before : UInt8) (v : Vfs) (path : Str) (count : Nat) :
    Option (List Dirent) × Vfs :=
  let (resolved, heap) := resolveNamespacePath before v.heap path v.ns
  let v := { v with heap := heap }
  match readDirTarget v.mounts resolved with
  | none => (none, v)
  | some (.ramfs, p) => (some (ramfsReadDir v.ram p count), v)
  | some (.abyssfs, p) => (abyssfsReadDir v.abyss p count, v)

/-- `vfs_read_dir` changes nothing but the heap, and that only to resolve the path. -/
theorem vfsReadDir_snd (before : UInt8) (v : Vfs) (path : Str) (count : Nat) :
    (vfsReadDir before v path count).2 =
      { v with heap := (resolveNamespacePath before v.heap path v.ns).2 } := by
  unfold vfsReadDir
  dsimp only
  cases readDirTarget v.mounts (resolveNamespacePath before v.heap path v.ns).1 with
  | none => rfl
  | some target =>
    obtain ⟨fs, p⟩ := target
    cases fs <;> rfl

/-- `vfs_read`: the bytes delivered, `none` for -1. -/
def vfsRead (v : Vfs) (fd : Int) (count : Nat) : Option (List UInt8) × Vfs :=
  match getFile v fd with
  | none => (none, v)
  | some file =>
    match file.fOps with
    | .ramfs =>
      let (out, file) := ramfsRead v.ram file count
      (some out, v.setFile fd file)
    | .abyssfs =>
      let (out, file) := abyssfsRead v.abyss file count
      (out, v.setFile fd file)

/-- `vfs_write`; `buf` holds the `count` bytes to be written. -/
def vfsWrite (v : Vfs) (fd : Int) (buf : List UInt8) : Int × Vfs :=
  match getFile v fd with
  | none => (-1, v)
  | some file =>
    match file.fOps with
    | .ramfs =>
      let (n, file, ram) := ramfsWrite v.ram file buf
      (n, { v.setFile fd file with ram := ram })
    | .abyssfs =>
      let (n, abyss) := abyssfsWrite v.abyss file buf
      (n, { v with abyss := abyss })

/-- `vfs_close`; neither table of operations has a `close`. -/
def vfsClose (v : Vfs) (fd : Int) : Int × Vfs :=
  match getFile v fd with
  | none => (-1, v)
  | some _ => (0, { v with fdTable := fun k => if k = fd.toNat then none else v.fdTable k })

/-! ## Bindings -/

/-- `sizeof(struct namespace)`. -/
def sizeofNamespace : Nat := 32

/-- `create_namespace`: the heap after, and whether all three pieces were allocated. -/
def createNamespace (heap : Heap) (old new : Str) : Bool × Heap :=
  match kalloc heap sizeofNamespace with
  | none => (false, heap)
  | some (_, heap) =>
    let (oldPath, heap) := match kalloc heap (old.length + 1) with
      | none => (false, heap)
      | some (_, heap) => (true, heap)
    let (newPath, heap) := match kalloc heap (new.length + 1) with
      | none => (false, heap)
      | some (_, heap) => (true, heap)
    (oldPath && newPath, heap)

/-- `bind`: the new binding comes first in the list of the current process. -/
def bind (before : UInt8) (v : Vfs) (b : Binding) : Int × Vfs :=
  match vfsReadDir before v b.oldPath 1 with
  | (none, v) => (-1, v)
  | (some _, v) =>
    match vfsReadDir before v b.newPath 1 with
    | (none, v) => (-1, v)
    | (some _, v) =>
      let (ok, heap) := createNamespace v.heap b.oldPath b.newPath
      let v := { v with heap := heap }
      if ok then (0, { v with ns := b :: v.ns }) else (-1, v)

end OsArm
