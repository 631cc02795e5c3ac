import OsArm.CString

/-!
# The kernel heap and the types of the VFS (`kmalloc.c`, `vfs.h`)

`kalloc` hands out consecutive pieces of one static array and `kfree` does
nothing, so a heap is its `heap_pos`.  The array is zero when the kernel starts
and no piece is handed out twice: fields a caller does not set are zero.
-/

namespace OsArm

/-- `sizeof(heap)`. -/
def heapSize : Nat := 1024 * 1024

/-- The state of `kmalloc.c`: `heap_pos`. -/
structure Heap where
  pos : Nat
  deriving DecidableEq

/-- `kalloc(size)`: the offset handed out, or `none` for `NULL`.  The sum is
formed in 64 bits. -/
def kalloc (h : Heap) (size : Nat) : Option (Nat × Heap) :=
  if (h.pos + size) % 2 ^ 64 > heapSize then none
  else some (h.pos, { pos := (h.pos + size) % 2 ^ 64 })

/-- A successful `kalloc` hands out the next piece of the heap. -/
theorem kalloc_some {h h' : Heap} {size a : Nat} (hpos : h.pos ≤ heapSize) (hsize : size < 2 ^ 63)
    (halloc : kalloc h size = some (a, h')) :
    a = h.pos ∧ h'.pos = h.pos + size ∧ h.pos + size ≤ heapSize := by
  have hsum : h.pos + size < 2 ^ 64 := by
    simp only [heapSize] at hpos
    omega
  rw [kalloc, Nat.mod_eq_of_lt hsum] at halloc
  split at halloc
  · cases halloc
  · next hle =>
    simp only [Option.some.injEq, Prod.mk.injEq] at halloc
    obtain ⟨ha, rfl⟩ := halloc
    exact ⟨ha.symm, rfl, Nat.not_lt.1 hle⟩

/-- It moves the heap up. -/
theorem kalloc_grows {h : Heap} {n : Nat} {r : Nat × Heap} (hle : h.pos ≤ heapSize)
    (hn : n < 2 ^ 63) (hr : kalloc h n = some r) : h.pos ≤ r.2.pos ∧ r.2.pos ≤ heapSize := by
  obtain ⟨-, hpos, hsum⟩ := kalloc_some hle hn hr
  omega

/-- The two operation tables a `struct vfs_file` can point to. -/
inductive FsType
  | abyssfs
  | ramfs
  deriving DecidableEq

/-- `struct vfs_file`: the operations, the file behind the handle (an inode
number for AbyssFS, an index into `files` for RAMFS) and the position. -/
structure VfsFile where
  fOps : FsType
  privateData : Nat
  fPos : Nat
  deriving DecidableEq

/-- `sizeof(struct vfs_file)`. -/
def sizeofVfsFile : Nat := 304

/-- `VFS_MAX_PATH`. -/
def vfsMaxPath : Nat := 256

/-- `struct dirent`. -/
structure Dirent where
  inode : Nat
  name : Str
  deriving DecidableEq

end OsArm
