import OsArm.Abyss.Runs

/-!
# Opening a file of AbyssFS

`get_inode_by_path` finds the entries of the root (`RootInv.getInodeByPath_some`,
`RootInv.getInodeByPath_none`).  `abyssfs_open` does not ask it:

* `abyssfsOpen_eq` — every handle it returns is on inode 0;
* `opensNamed_iff` — so it opens what the path names exactly when that is inode
  0, and what was written through the handle of `create` does not come back.
-/

namespace OsArm

/-! ## Names of the root as paths -/

namespace EntryName

/-- A name is one token. -/
theorem strtokR_eq (n : EntryName) : strtokR n.bytes [slash] = some (n.bytes, []) := by
  have hmem : ∀ c ∈ n.bytes, decide (c ∉ [slash]) = true := by
    intro c hc
    rw [decide_eq_true_eq, List.mem_singleton]
    rintro rfl
    exact n.no_slash hc
  have hdrop : n.bytes.dropWhile (· ∈ [slash]) = n.bytes := by
    simp only [List.mem_singleton]
    exact n.dropWhile_slash
  unfold strtokR
  rw [hdrop]
  cases hb : n.bytes with
  | nil => exact absurd hb n.nonempty
  | cons c cs =>
    rw [hb] at hmem
    dsimp only
    rw [List.takeWhile_eq_self_iff.2 hmem, List.dropWhile_eq_nil_iff.2 hmem]
    rfl

/-- A path that is one name is looked up in the root. -/
theorem getInodeByPath_eq (n : EntryName) {fs : AbyssFs} (h : (fs.inodes 1).blocks = rootBlock) :
    getInodeByPath fs n.bytes = (findEntry fs.blocks n.bytes walkFuel rootAddr).bind fun dir =>
      (getInode fs (fs.blocks.word dir)).map fun _ => fs.blocks.word dir := by
  have htake : n.bytes.take 255 = n.bytes := List.take_of_length_le (by have := n.length_le; omega)
  have hblock : getBlock rootBlock = some rootAddr := rfl
  have hroot : ¬ rootBlock = 0 := by decide
  have hnil : strtokR [] [slash] = none := rfl
  unfold getInodeByPath
  simp only [n.dropWhile_slash, if_neg n.nonempty, htake]
  rw [walkPath, n.strtokR_eq]
  simp only [h, if_neg hroot, hblock, Option.bind_some]
  cases findEntry fs.blocks n.bytes walkFuel rootAddr with
  | none => rfl
  | some dir =>
    cases hget : getInode fs (fs.blocks.word dir) with
    | none => simp only [hget, Option.bind_some, Option.map_none]
    | some inode =>
      simp only [hget, Option.bind_some, Option.map_some]
      rw [walkPath, hnil]

end EntryName

variable {fs : AbyssFs} {rs ts : List DirRecord} {r : DirRecord}

/-- A name that no entry has names no inode. -/
theorem RootInv.getInodeByPath_none (h : RootInv fs rs) (n : EntryName)
    (hne : ∀ r ∈ rs, r.name ≠ n.bytes) : getInodeByPath fs n.bytes = none := by
  rw [n.getInodeByPath_eq h.own.root.2, h.dir.findEntry_eq_none n.nul_free n.ne_dots hne]
  rfl

/-- A name names the inode of its first entry. -/
theorem RootInv.getInodeByPath_some (h : RootInv fs (rs ++ r :: ts)) (n : EntryName)
    (hr : r.name = n.bytes) (hne : ∀ q ∈ rs, q.name ≠ n.bytes) :
    getInodeByPath fs n.bytes = some r.inode := by
  have hdots : r.name ≠ dot.name ∧ r.name ≠ (dotdot false).name := by
    rw [hr]
    exact n.ne_dots
  obtain ⟨hfind, hstored⟩ := h.dir.findEntry_eq_some hdots (by rw [hr]; exact hne)
  rw [hr] at hfind
  have hlt := (h.live r (by simp)).2.1
  rw [n.getInodeByPath_eq h.own.root.2, hfind, Option.bind_some, hstored.1, getInode_of_lt hlt]
  rfl

/-! ## Handles -/

/-- `abyssfs_open` answers by `kalloc` alone, and always with inode 0. -/
theorem abyssfsOpen_eq (heap : Heap) (path : Str) :
    (abyssfsOpen heap path).1 = (kalloc heap sizeofVfsFile).map fun _ =>
      { fOps := .abyssfs, privateData := 0, fPos := 0 } := by
  unfold abyssfsOpen
  cases kalloc heap sizeofVfsFile <;> rfl

/-- Opening a path gives a handle on the inode the path names, and fails if there
is none. -/
def OpensNamed (heap : Heap) (fs : AbyssFs) (path : Str) : Prop :=
  (abyssfsOpen heap path).1.map VfsFile.privateData = getInodeByPath fs path

/-- No name of the root names inode 0, so opening one is right only when it fails
and the name is not there. -/
theorem RootInv.opensNamed_name (h : RootInv fs rs) (heap : Heap) (n : EntryName) :
    OpensNamed heap fs n.bytes ↔
      kalloc heap sizeofVfsFile = none ∧ getInodeByPath fs n.bytes = none := by
  rw [OpensNamed, abyssfsOpen_eq]
  rcases cut_at_name rs n.bytes with hne | ⟨us, r, ts, rfl, hr, hne⟩
  · rw [h.getInodeByPath_none n hne]
    simp
  · have hlive := (h.live r (by simp)).1
    rw [h.getInodeByPath_some n hr hne]
    cases kalloc heap sizeofVfsFile with
    | none => simp
    | some a =>
      have hzero : (0 : Nat) ≠ r.inode := by omega
      simp [hzero]

/-- What `abyssfs_create` returns is a handle on the inode it allocated, which is
not inode 0. -/
theorem abyssfsCreate_inode {heap : Heap} {cwd path : Str} {file : VfsFile}
    (h : (abyssfsCreate heap fs cwd path).1 = some file) :
    file.privateData ≠ 0 ∧ (abyssfsCreate heap fs cwd path).2.2.inodes 0 = fs.inodes 0 := by
  unfold abyssfsCreate at h ⊢
  rcases allocInode_spec fs with hnone | ⟨i, hi, hpos, -, -⟩
  · rw [hnone] at h
    cases h
  · have hi0 : i ≠ 0 := by omega
    have hkeep := congrFun (createFile_inodes (fs.setInode i { Inode.zero with mode := 0x1FF })
      cwd (path.dropWhile (· = slash)) i) 0
    rw [setInode_of_ne (Ne.symm hi0)] at hkeep
    simp only [hi, if_neg hi0] at h ⊢
    split at h
    case isTrue => cases h
    case isFalse hret =>
      rw [if_neg hret]
      cases hk : kalloc heap sizeofVfsFile with
      | none =>
        rw [hk] at h
        cases h
      | some p =>
        rw [hk] at h
        dsimp only at h ⊢
        rw [Option.some_inj] at h
        rw [← h]
        exact ⟨hi0, hkeep⟩

/-- A write leaves inode 0 alone unless the handle is on it. -/
theorem abyssfsWrite_inode_zero {file : VfsFile} (h : file.privateData ≠ 0) (buf : List UInt8) :
    (abyssfsWrite fs file buf).2.inodes 0 = fs.inodes 0 := by
  rcases abyssfsWrite_spec fs file buf with heq | ⟨fs₁, b, node, hblock, -, -, -, heq⟩
  · rw [heq]
  · rw [heq, storeBlock_inodes, setInode_of_ne (Ne.symm h)]
    rcases hblock with ⟨rfl, -⟩ | ⟨-, rfl, -⟩
    · rfl
    · rw [(allocBlock_frame fs).2]

/-- **`abyssfs_open` opens what the path names only by accident.**

* It does so exactly when the path names inode 0, or names nothing while the heap
  is used up.
* In a state that a run reaches, for a name in the root, only the latter happens.
* Any two handles it returns are on the same inode.
* As long as nothing was written through such a handle, data written to a new
  file is read back through a handle opened on its path only if it is empty. -/
theorem opensNamed_iff (heap : Heap) (fs : AbyssFs) (path : Str) :
    (OpensNamed heap fs path ↔
      if (heap.pos + sizeofVfsFile) % 2 ^ 64 ≤ heapSize then getInodeByPath fs path = some 0
      else getInodeByPath fs path = none) ∧
    (∀ heap₀ m t (n : EntryName), abyssLts.Reachable (AbyssState.init heap₀ m) t →
      (OpensNamed heap t.fs n.bytes ↔
        kalloc heap sizeofVfsFile = none ∧ getInodeByPath t.fs n.bytes = none)) ∧
    (∀ heap' path' f g, (abyssfsOpen heap path).1 = some f →
      (abyssfsOpen heap' path').1 = some g → f.privateData = g.privateData) ∧
    ∀ heap' cwd file data count g, (fs.inodes 0).size = 0 →
      (abyssfsCreate heap fs cwd path).1 = some file → (abyssfsOpen heap' path).1 = some g →
      ((abyssfsRead (abyssfsWrite (abyssfsCreate heap fs cwd path).2.2 file data).2 g count).1 =
        some data ↔ data = []) := by
  have hzero : ∀ heap path f, (abyssfsOpen heap path).1 = some f →
      f.privateData = 0 ∧ f.fPos = 0 := by
    intro heap path f hf
    rw [abyssfsOpen_eq] at hf
    obtain ⟨x, -, rfl⟩ := Option.map_eq_some_iff.1 hf
    exact ⟨rfl, rfl⟩
  refine ⟨?_, ?_, ?_, ?_⟩
  · rw [OpensNamed, abyssfsOpen_eq, kalloc]
    by_cases hfull : (heap.pos + sizeofVfsFile) % 2 ^ 64 > heapSize
    · rw [if_pos hfull, if_neg (Nat.not_le.2 hfull)]
      exact eq_comm
    · rw [if_neg hfull, if_pos (Nat.not_lt.1 hfull)]
      exact eq_comm
  · intro heap₀ m t n ht
    obtain ⟨rs, hinv, -⟩ := rootInv_invariant ht
    exact hinv.opensNamed_name heap n
  · intro heap' path' f g hf hg
    rw [(hzero _ _ _ hf).1, (hzero _ _ _ hg).1]
  · intro heap' cwd file data count g hsize hfile hg
    obtain ⟨hne, hcreate⟩ := abyssfsCreate_inode hfile
    obtain ⟨hg0, hpos⟩ := hzero _ _ _ hg
    have hread : (abyssfsWrite (abyssfsCreate heap fs cwd path).2.2 file data).2.inodes 0 =
        fs.inodes 0 := by
      rw [abyssfsWrite_inode_zero hne, hcreate]
    have hmax : 0 < maxInodes := by decide
    rw [abyssfsRead, hg0, getInode_of_lt hmax, hread]
    dsimp only
    rw [hsize, hpos, if_pos (Nat.le_refl 0), Option.some_inj]
    exact eq_comm

/-- A path that names nothing is opened all the same. -/
theorem not_opensNamed_missing :
    ¬ OpensNamed (Heap.mk 0) (abyssfsInit fun _ => 0) nameA.bytes := by
  rw [OpensNamed, (rootInv_init fun _ => 0).getInodeByPath_none nameA (by simp), abyssfsOpen_eq]
  decide

/-- What is written to a new file `a` in a fresh file system is not read back
through a handle opened on it. -/
theorem opensNamed_iff_readback :
    (abyssfsRead (abyssfsWrite (abyssfsCreate (Heap.mk 0) (abyssfsInit fun _ => 0) [slash]
      nameA.bytes).2.2 { fOps := .abyssfs, privateData := 2, fPos := 0 } [1]).2
      { fOps := .abyssfs, privateData := 0, fPos := 0 } 1).1 ≠ some [1] := by
  have hopen : (abyssfsOpen (Heap.mk 304) nameA.bytes).1 =
      some { fOps := .abyssfs, privateData := 0, fPos := 0 } := by
    rw [abyssfsOpen_eq]
    rfl
  rw [Ne, (opensNamed_iff (Heap.mk 0) (abyssfsInit fun _ => 0) nameA.bytes).2.2.2
    (Heap.mk 304) [slash]
    _ [1] 1 _ rfl abyssfsCreate_init hopen]
  decide

end OsArm
