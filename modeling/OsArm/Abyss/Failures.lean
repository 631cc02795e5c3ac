import OsArm.Abyss.Root

/-!
# Creations of AbyssFS that fail

`abyssfs_create` and `abyssfs_mkdir` take an inode first, then a block, and then look for the
directory of the process; what they have taken they keep when a later step fails.

* `FindsDir` — `create_file` succeeds; `createFile_neg_iff` says that nothing else matters.
* `mode_of_abyssfsCreate`, `mode_of_abyssfsMkdir` — an inode once taken stays in use.
* `failure_unchanged_iff` — a failed call changes nothing if and only if it fails for want of
  an inode.
-/

namespace OsArm

/-- The file system is unharmed: the inode table, the bitmap, the count of free blocks and the
blocks of the directories are as they were. -/
structure Unchanged (fs fs' : AbyssFs) : Prop where
  inodes : fs'.inodes = fs.inodes
  blockBitmap : fs'.blockBitmap = fs.blockBitmap
  freeBlocks : fs'.freeBlocks = fs.freeBlocks
  directories : ∀ d, (fs.inodes d).mode &&& 0x4000 ≠ 0 → ∀ x, (fs.inodes d).blocks * blockSize ≤ x →
    x < (fs.inodes d).blocks * blockSize + blockSize → fs'.blocks x = fs.blocks x

theorem Unchanged.refl (fs : AbyssFs) : Unchanged fs fs := ⟨rfl, rfl, rfl, fun _ _ _ _ _ => rfl⟩

/-- `create_file` finds the directory of a process in `cwd`, and the directory has a block. -/
def FindsDir (fs : AbyssFs) (cwd : Str) : Prop :=
  ∃ d, createDir fs cwd = some d ∧ ((fs.inodes d).blocks ≠ 0 ∨ d = 1)

/-- `create_file` fails when there is no directory, and only then. -/
theorem createFile_neg_iff {fs : AbyssFs} {cwd name : Str} {i : Nat} :
    (createFile fs cwd name i).1 < 0 ↔ ¬ FindsDir fs cwd := by
  unfold createFile FindsDir
  cases hdir : createDir fs cwd with
  | none => simp
  | some d =>
    dsimp only
    by_cases hblock : (fs.inodes d).blocks = 0 ∧ d ≠ 1
    · rw [if_pos hblock]
      simp [hblock.1, hblock.2]
    · rw [if_neg hblock]
      have hok : (fs.inodes d).blocks ≠ 0 ∨ d = 1 := by tauto
      split <;> simp [hok]

section Calls

variable {heap : Heap} {fs : AbyssFs} {cwd path : Str}

/-! ## `abyssfs_create` -/

/-- Without a free inode nothing happens. -/
theorem abyssfsCreate_of_zero (h : (allocInode fs).1 = 0) :
    abyssfsCreate heap fs cwd path = (none, heap, fs) := by
  rcases allocInode_spec fs with hnone | ⟨i, hi, hpos, -⟩
  · simp only [abyssfsCreate, hnone, if_true]
  · rw [hi] at h
    dsimp only at h
    omega

/-- With one the call succeeds when there is a directory and memory for the handle. -/
theorem abyssfsCreate_isSome_iff (h : (allocInode fs).1 ≠ 0) :
    (abyssfsCreate heap fs cwd path).1.isSome ↔
      FindsDir (allocInode fs).2 cwd ∧ (kalloc heap sizeofVfsFile).isSome := by
  simp only [abyssfsCreate, if_neg h]
  by_cases hdir : FindsDir (allocInode fs).2 cwd
  · rw [if_neg (mt createFile_neg_iff.1 (not_not.2 hdir))]
    cases kalloc heap sizeofVfsFile <;> simp [hdir]
  · rw [if_pos (createFile_neg_iff.2 hdir)]
    simp [hdir]

/-- The inode that it takes stays in use, whatever comes of the call. -/
theorem mode_of_abyssfsCreate (h : (allocInode fs).1 ≠ 0) :
    ((abyssfsCreate heap fs cwd path).2.2.inodes (allocInode fs).1).mode ≠ 0 := by
  rw [abyssfsCreate_inodes]
  rcases allocInode_spec fs with hnone | ⟨i, hi, -⟩
  · rw [hnone] at h
    exact absurd rfl h
  · rw [hi, setInode_self]
    decide

/-! ## `abyssfs_mkdir` -/

/-- Without a free inode nothing happens. -/
theorem abyssfsMkdir_of_zero (h : (allocInode fs).1 = 0) : abyssfsMkdir fs cwd path = (-1, fs) := by
  rcases allocInode_spec fs with hnone | ⟨i, hi, hpos, -⟩
  · simp only [abyssfsMkdir, hnone, if_true]
  · rw [hi] at h
    dsimp only at h
    omega

/-- The state that the `create_file` of `abyssfs_mkdir` starts from. -/
def mkdirState (fs : AbyssFs) : AbyssFs :=
  initDir (allocBlock (allocInode fs).2).2 (allocInode fs).1 (allocBlock (allocInode fs).2).1

/-- There are an inode and a block for a directory: `abyssfs_mkdir` succeeds where the process
is in one. -/
def HasDirSpace (fs : AbyssFs) : Prop :=
  (allocInode fs).1 ≠ 0 ∧ (allocBlock (allocInode fs).2).1 ≠ 0

/-- With an inode the call succeeds when there are a block and a directory. -/
theorem abyssfsMkdir_zero_iff (h : (allocInode fs).1 ≠ 0) :
    (abyssfsMkdir fs cwd path).1 ≠ -1 ↔
      (allocBlock (allocInode fs).2).1 ≠ 0 ∧ FindsDir (mkdirState fs) cwd := by
  by_cases hb : (allocBlock (allocInode fs).2).1 = 0
  · simp [abyssfsMkdir, h, hb]
  · simp only [abyssfsMkdir, if_neg h, if_neg hb]
    rw [← mkdirState]
    by_cases hdir : FindsDir (mkdirState fs) cwd
    · rw [if_neg (mt createFile_neg_iff.1 (not_not.2 hdir))]
      simp [hb, hdir]
    · rw [if_pos (createFile_neg_iff.2 hdir)]
      simp [hdir]

/-- The inode that it takes stays in use, whatever comes of the call. -/
theorem mode_of_abyssfsMkdir (h : (allocInode fs).1 ≠ 0) :
    ((abyssfsMkdir fs cwd path).2.inodes (allocInode fs).1).mode ≠ 0 := by
  have hmode : ((allocInode fs).2.inodes (allocInode fs).1).mode = 0x1FF := by
    rcases allocInode_spec fs with hnone | ⟨i, hi, -⟩
    · rw [hnone] at h
      exact absurd rfl h
    · rw [hi, setInode_self]
  have hinit : ((mkdirState fs).inodes (allocInode fs).1).mode = 0x1FF ||| 0x4000 := by
    simp only [mkdirState, initDir, setInode_self, (allocBlock_frame _).2, hmode]
  unfold abyssfsMkdir
  dsimp only
  rw [if_neg h]
  split
  · rw [(allocBlock_frame _).2, hmode]
    decide
  · split <;> rw [createFile_inodes, ← mkdirState, hinit] <;> decide

end Calls

/-- **A failed creation changes nothing** if and only if it fails for want of an inode: with a
free inode, the call has to find what else it needs. -/
theorem failure_unchanged_iff (heap : Heap) (fs : AbyssFs) (cwd path : Str) :
    (((abyssfsCreate heap fs cwd path).1 = none →
        Unchanged fs (abyssfsCreate heap fs cwd path).2.2) ↔
      (allocInode fs).1 = 0 ∨
        FindsDir (allocInode fs).2 cwd ∧ (kalloc heap sizeofVfsFile).isSome) ∧
    (((abyssfsMkdir fs cwd path).1 = -1 → Unchanged fs (abyssfsMkdir fs cwd path).2) ↔
      (allocInode fs).1 = 0 ∨
        (allocBlock (allocInode fs).2).1 ≠ 0 ∧ FindsDir (mkdirState fs) cwd) := by
  by_cases h : (allocInode fs).1 = 0
  · rw [abyssfsCreate_of_zero h, abyssfsMkdir_of_zero h]
    exact ⟨iff_of_true (fun _ => .refl fs) (Or.inl h), iff_of_true (fun _ => .refl fs) (Or.inl h)⟩
  · have hfree := mode_of_allocInode h
    refine ⟨?_, ?_⟩
    · rw [← abyssfsCreate_isSome_iff h, or_iff_right h]
      constructor
      · intro hkeeps
        by_contra hnone
        have hsame := hkeeps (Option.not_isSome_iff_eq_none.1 hnone)
        exact mode_of_abyssfsCreate h (by rw [hsame.inodes]; exact hfree)
      · intro hsome hnone
        rw [hnone] at hsome
        cases hsome
    · rw [← abyssfsMkdir_zero_iff h, or_iff_right h]
      constructor
      · intro hkeeps hret
        have hsame := hkeeps hret
        exact mode_of_abyssfsMkdir h (by rw [hsame.inodes]; exact hfree)
      · intro hok hret
        exact absurd hret hok

/-- On a fresh file system and with the heap used up, `abyssfs_create` returns `NULL` and
keeps inode 2. -/
theorem create_keeps_inode :
    (abyssfsCreate (Heap.mk heapSize) (abyssfsInit fun _ => 0) [slash] (str ['/', 'a'])).1 = none ∧
      ¬ Unchanged (abyssfsInit fun _ => 0)
        (abyssfsCreate (Heap.mk heapSize) (abyssfsInit fun _ => 0) [slash]
          (str ['/', 'a'])).2.2 := by
  have halloc := allocInode_init
  have hne : (allocInode (abyssfsInit fun _ => 0)).1 ≠ 0 := by rw [halloc]; decide
  constructor
  · rw [← Option.not_isSome_iff_eq_none, abyssfsCreate_isSome_iff hne]
    intro hok
    exact absurd hok.2 (by decide)
  · intro hsame
    have hfree := mode_of_allocInode hne
    exact mode_of_abyssfsCreate hne (by rw [hsame.inodes]; exact hfree)

end OsArm
