import OsArm.Abyss.Basic

/-!
# Who owns which block of AbyssFS

The bitmap, the inode table and the blocks agree: `Ownership` says that the
superblock, the inode blocks and the root block stay reserved, that every other
inode has no block or a data block, and that no two live inodes share one.

* `allocBlock_spec`, `allocInode_spec` — what the two allocators return.
* `createFile_inodes`, `abyssfsMkdir_of_ne` — which inodes a creation leaves alone.
* `Ownership.setInode`, `Ownership.allocBlock`, `Ownership.freeBlock` — the
  elementary updates, each with the condition under which it keeps the invariant.
* `Ownership.allocInode`, `Ownership.assign`, `Ownership.release` — the updates
  the operations make.
* `abyssfsWrite_spec`, `Ownership.write`, `Ownership.write_frame` — what a write
  does, that it keeps the invariant, and what it leaves alone.
-/

namespace OsArm

open BitSet

/-- `mode != 0`, or inode 0, which the handles of `abyssfs_open` use. -/
def Live (fs : AbyssFs) (n : Nat) : Prop := (fs.inodes n).mode ≠ 0 ∨ n = 0

/-- **The ownership invariant.** -/
structure Ownership (fs : AbyssFs) : Prop where
  /-- The bits of the superblock, the inode blocks and the root block are set. -/
  reserved : ∀ i ≤ rootBlock, fs.blockBitmap.getLsbD i = true
  /-- Inode 1 is the root directory. -/
  root : (fs.inodes 1).mode = 0x4000 ∧ (fs.inodes 1).blocks = rootBlock
  /-- Every other inode has no block or a data block behind the root block. -/
  range : ∀ n, n ≠ 1 → (fs.inodes n).blocks = 0 ∨
    rootBlock < (fs.inodes n).blocks ∧ (fs.inodes n).blocks < totalBlocks
  /-- The block of a live inode is taken. -/
  owned : ∀ n, Live fs n → (fs.inodes n).blocks ≠ 0 →
    fs.blockBitmap.getLsbD (fs.inodes n).blocks = true
  /-- Live inodes have different blocks. -/
  exclusive : ∀ n k, n ≠ k → Live fs n → Live fs k → (fs.inodes n).blocks ≠ 0 →
    (fs.inodes n).blocks ≠ (fs.inodes k).blocks

/-! ## State updates -/

section Updates

variable {fs : AbyssFs} {n k : Nat} {node : Inode}

@[simp] theorem setInode_self : (fs.setInode n node).inodes n = node := if_pos rfl

theorem setInode_of_ne (h : k ≠ n) : (fs.setInode n node).inodes k = fs.inodes k := if_neg h

@[simp] theorem setInode_blocks : (fs.setInode n node).blocks = fs.blocks := rfl

@[simp] theorem setInode_bitmap : (fs.setInode n node).blockBitmap = fs.blockBitmap := rfl

theorem setInode_inodes (fs : AbyssFs) (n : Nat) : fs.setInode n (fs.inodes n) = fs := by
  have h : (fun k => if k = n then fs.inodes n else fs.inodes k) = fs.inodes := by
    funext k
    split
    case isTrue hk => rw [hk]
    case isFalse => rfl
  rw [AbyssFs.setInode, h]

theorem setInode_setInode {node' : Inode} :
    (fs.setInode n node).setInode n node' = fs.setInode n node' := by
  simp only [AbyssFs.setInode, AbyssFs.mk.injEq, true_and, and_true]
  funext k
  split <;> rfl

theorem setInode_storeBlock {b c : Nat} {buf : List UInt8} :
    (storeBlock fs b buf c).setInode n node = storeBlock (fs.setInode n node) b buf c := rfl

@[simp] theorem storeBlock_inodes {b c : Nat} {buf : List UInt8} :
    (storeBlock fs b buf c).inodes = fs.inodes := rfl

theorem live_setInode_of_ne (h : k ≠ n) : Live (fs.setInode n node) k ↔ Live fs k := by
  rw [Live, Live, setInode_of_ne h]

theorem getInode_of_lt (h : n < maxInodes) : getInode fs n = some (fs.inodes n) :=
  if_neg (by omega)

end Updates

/-! ## The allocators -/

/-- `alloc_block` answers 0 and changes nothing, or takes a free data block. -/
theorem allocBlock_spec (fs : AbyssFs) :
    allocBlock fs = (0, fs) ∨ ∃ b, (allocBlock fs).1 = b ∧ firstDataBlock ≤ b ∧ b < totalBlocks ∧
      fs.blockBitmap.getLsbD b = false ∧ (allocBlock fs).2.blocks = fs.blocks ∧
      (allocBlock fs).2.inodes = fs.inodes ∧
      (allocBlock fs).2.blockBitmap = fs.blockBitmap ||| bit 64 b := by
  unfold allocBlock
  cases hfind : (List.range' firstDataBlock (totalBlocks - firstDataBlock)).find?
      (fun i => fs.blockBitmap &&& bit 64 i = 0#64) with
  | none => exact Or.inl rfl
  | some b =>
    have hfree : fs.blockBitmap &&& bit 64 b = 0#64 := by simpa using List.find?_some hfind
    have hmem := List.mem_range'_1.1 (List.mem_of_find?_eq_some hfind)
    have hlt : b < 64 := by
      simp only [firstDataBlock, totalBlocks, inodeBlocks] at hmem
      omega
    exact Or.inr ⟨b, rfl, hmem.1, hlt, (and_bit_eq_zero_iff hlt).1 hfree, rfl, rfl, rfl⟩

/-- `alloc_block` answers 0 only when it has changed nothing. -/
theorem allocBlock_eq_of_zero {fs : AbyssFs} (h : (allocBlock fs).1 = 0) :
    allocBlock fs = (0, fs) := by
  rcases allocBlock_spec fs with hnone | ⟨b, hb, hfirst, -⟩
  · exact hnone
  · rw [h] at hb
    rw [← hb] at hfirst
    exact absurd hfirst (by decide)

/-- `alloc_block` changes the bitmap only. -/
theorem allocBlock_frame (fs : AbyssFs) :
    (allocBlock fs).2.blocks = fs.blocks ∧ (allocBlock fs).2.inodes = fs.inodes := by
  rcases allocBlock_spec fs with hnone | ⟨b, -, -, -, -, hblocks, hinodes, -⟩
  · rw [hnone]
    exact ⟨rfl, rfl⟩
  · exact ⟨hblocks, hinodes⟩

/-- `alloc_inode` answers 0 and changes nothing, or takes an inode of mode 0. -/
theorem allocInode_spec (fs : AbyssFs) :
    allocInode fs = (0, fs) ∨ ∃ i, allocInode fs = (i, fs.setInode i
      { Inode.zero with mode := 0x1FF }) ∧ 1 ≤ i ∧ i < maxInodes ∧ (fs.inodes i).mode = 0 := by
  unfold allocInode
  cases hfind : (List.range' 1 (maxInodes - 1)).find? (fun i => (fs.inodes i).mode = 0) with
  | none => exact Or.inl rfl
  | some i =>
    have hmode : (fs.inodes i).mode = 0 := by simpa using List.find?_some hfind
    have hmem := List.mem_range'_1.1 (List.mem_of_find?_eq_some hfind)
    have hlt : i < maxInodes := by
      simp only [maxInodes, inodeBlocks, blockSize] at hmem ⊢
      omega
    exact Or.inr ⟨i, rfl, hmem.1, hlt, hmode⟩

/-- `alloc_inode` finds an inode if one is free. -/
theorem allocInode_of_free {fs : AbyssFs} {i : Nat} (hpos : 1 ≤ i) (hlt : i < maxInodes)
    (hmode : (fs.inodes i).mode = 0) : (allocInode fs).1 ≠ 0 := by
  have hmem : i ∈ List.range' 1 (maxInodes - 1) := List.mem_range'_1.2 ⟨hpos, by omega⟩
  rw [allocInode]
  cases hfind : (List.range' 1 (maxInodes - 1)).find? (fun i => (fs.inodes i).mode = 0) with
  | none => exact absurd hmode (by simpa using List.find?_eq_none.1 hfind i hmem)
  | some k =>
    have hk := List.mem_range'_1.1 (List.mem_of_find?_eq_some hfind)
    exact Nat.one_le_iff_ne_zero.1 hk.1

/-- `alloc_inode` takes the first free inode. -/
theorem allocInode_le {fs : AbyssFs} {i : Nat} (hpos : 1 ≤ i) (hmode : (fs.inodes i).mode = 0) :
    (allocInode fs).1 ≤ i := by
  unfold allocInode
  cases hfind : (List.range' 1 (maxInodes - 1)).find? (fun i => (fs.inodes i).mode = 0) with
  | none => exact Nat.zero_le i
  | some k =>
    have hfirst := (List.find?_range'_eq_some.1 hfind).2.2
    by_contra hlt
    have := hfirst i hpos (Nat.not_le.1 hlt)
    simp [hmode] at this

theorem allocInode_lt (fs : AbyssFs) : (allocInode fs).1 < 2 ^ 32 := by
  rcases allocInode_spec fs with hnone | ⟨i, hi, -, hlt, -⟩
  · rw [hnone]
    exact Nat.two_pow_pos 32
  · rw [hi]
    exact inode_lt_two_pow hlt

/-- The inode that `alloc_inode` finds was free. -/
theorem mode_of_allocInode {fs : AbyssFs} (hne : (allocInode fs).1 ≠ 0) :
    (fs.inodes (allocInode fs).1).mode = 0 := by
  rcases allocInode_spec fs with hnone | ⟨i, hi, -, -, hmode⟩
  · rw [hnone] at hne
    exact absurd rfl hne
  · rwa [hi]

/-- `alloc_inode` touches the inode that it answers only. -/
theorem allocInode_of_ne {fs : AbyssFs} {k : Nat} (hk : k ≠ (allocInode fs).1) :
    (allocInode fs).2.inodes k = fs.inodes k := by
  rcases allocInode_spec fs with hnone | ⟨i, hi, -⟩
  · rw [hnone]
  · rw [hi] at hk ⊢
    exact setInode_of_ne hk

/-! ## Creations -/

/-- `create_file` works on the blocks only. -/
theorem createFile_inodes (fs : AbyssFs) (cwd name : Str) (i : Nat) :
    (createFile fs cwd name i).2.inodes = fs.inodes := by
  unfold createFile
  cases createDir fs cwd with
  | none => rfl
  | some dirInode =>
    dsimp only
    split
    · rfl
    · split <;> rfl

/-- `abyssfs_create` touches the inode that it allocates only. -/
theorem abyssfsCreate_inodes (heap : Heap) (fs : AbyssFs) (cwd path : Str) :
    (abyssfsCreate heap fs cwd path).2.2.inodes = (allocInode fs).2.inodes := by
  unfold abyssfsCreate
  dsimp only
  split
  · rfl
  · split
    · exact createFile_inodes _ _ _ _
    · split <;> exact createFile_inodes _ _ _ _

/-- What `abyssfs_create` does when its `create_file` succeeds. -/
theorem abyssfsCreate_eq {fs : AbyssFs} {cwd path : Str} (heap : Heap)
    (hne : (allocInode fs).1 ≠ 0) (hret : (createFile (allocInode fs).2 cwd
      (path.dropWhile (· = slash)) (allocInode fs).1).1 = 0) :
    (abyssfsCreate heap fs cwd path).2.2 = (createFile (allocInode fs).2 cwd
      (path.dropWhile (· = slash)) (allocInode fs).1).2 := by
  simp only [abyssfsCreate, if_neg hne, hret, lt_self_iff_false, if_false]
  cases kalloc heap sizeofVfsFile <;> rfl

/-- What `abyssfs_mkdir` does when its `create_file` succeeds. -/
theorem abyssfsMkdir_eq {fs : AbyssFs} {cwd path name : Str} (hne : (allocInode fs).1 ≠ 0)
    (hb : (allocBlock (allocInode fs).2).1 ≠ 0)
    (hname : basename (path.dropWhile (· = slash)) = name)
    (hret : (createFile (initDir (allocBlock (allocInode fs).2).2 (allocInode fs).1
      (allocBlock (allocInode fs).2).1) cwd name (allocInode fs).1).1 = 0) :
    abyssfsMkdir fs cwd path = (0, (createFile (initDir (allocBlock (allocInode fs).2).2
      (allocInode fs).1 (allocBlock (allocInode fs).2).1) cwd name (allocInode fs).1).2) := by
  simp only [abyssfsMkdir, if_neg hne, if_neg hb, hname, hret, lt_self_iff_false, if_false]

/-- `abyssfs_mkdir` makes a directory of the inode that it allocates. -/
theorem initDir_of_ne {fs : AbyssFs} {k : Nat} (hk : k ≠ (allocInode fs).1) :
    (initDir (allocBlock (allocInode fs).2).2 (allocInode fs).1
      (allocBlock (allocInode fs).2).1).inodes k = fs.inodes k := by
  simp only [initDir]
  rw [setInode_of_ne hk, (allocBlock_frame _).2, allocInode_of_ne hk]

/-- It touches no other inode. -/
theorem abyssfsMkdir_of_ne {fs : AbyssFs} {k : Nat} (hk : k ≠ (allocInode fs).1)
    (cwd path : Str) : (abyssfsMkdir fs cwd path).2.inodes k = fs.inodes k := by
  unfold abyssfsMkdir
  dsimp only
  split
  · exact allocInode_of_ne hk
  · split
    · rw [(allocBlock_frame _).2, allocInode_of_ne hk]
    · split <;> rw [createFile_inodes, initDir_of_ne hk]

namespace Ownership

variable {fs : AbyssFs} {n k b : Nat} {node : Inode}

/-- A live inode other than the root never has the root block. -/
theorem blocks_ne_root (h : Ownership fs) (hn : n ≠ 1) : (fs.inodes n).blocks ≠ rootBlock := by
  have := h.range n hn
  unfold rootBlock at *
  omega

/-! ## Elementary updates -/

/-- An inode other than the root may be overwritten if what it then owns is a
taken data block that no other live inode has. -/
theorem setInode (h : Ownership fs) (hn : n ≠ 1)
    (hrange : node.blocks = 0 ∨ rootBlock < node.blocks ∧ node.blocks < totalBlocks)
    (howned : node.blocks ≠ 0 → (node.mode ≠ 0 ∨ n = 0) →
      fs.blockBitmap.getLsbD node.blocks = true ∧
        ∀ k, k ≠ n → Live fs k → (fs.inodes k).blocks ≠ node.blocks) :
    Ownership (fs.setInode n node) where
  reserved := h.reserved
  root := by
    rw [setInode_of_ne (Ne.symm hn)]
    exact h.root
  range := by
    intro k hk
    by_cases hkn : k = n
    · rw [hkn, setInode_self]
      exact hrange
    · rw [setInode_of_ne hkn]
      exact h.range k hk
  owned := by
    intro k hlive hne
    by_cases hkn : k = n
    · subst hkn
      rw [Live, setInode_self] at hlive
      rw [setInode_self] at hne ⊢
      exact (howned hne hlive).1
    · rw [live_setInode_of_ne hkn] at hlive
      rw [setInode_of_ne hkn] at hne ⊢
      exact h.owned k hlive hne
  exclusive := by
    intro j k hjk hj hk hne
    by_cases hjn : j = n
    · subst hjn
      rw [Live, setInode_self] at hj
      rw [live_setInode_of_ne (Ne.symm hjk)] at hk
      rw [setInode_self] at hne
      rw [setInode_self, setInode_of_ne (Ne.symm hjk)]
      exact Ne.symm ((howned hne hj).2 k (Ne.symm hjk) hk)
    · rw [live_setInode_of_ne hjn] at hj
      rw [setInode_of_ne hjn] at hne ⊢
      by_cases hkn : k = n
      · subst hkn
        rw [Live, setInode_self] at hk
        rw [setInode_self]
        intro heq
        rw [heq] at hne
        exact (howned hne hk).2 j hjn hj heq
      · rw [live_setInode_of_ne hkn] at hk
        rw [setInode_of_ne hkn]
        exact h.exclusive j k hjk hj hk hne

/-- Rewriting an inode with the block it has, without bringing it to life. -/
theorem setInode_same (h : Ownership fs) (hn : n ≠ 1) (hblocks : node.blocks = (fs.inodes n).blocks)
    (hmode : node.mode ≠ 0 → Live fs n) : Ownership (fs.setInode n node) := by
  refine h.setInode hn ?_ fun hne hlive => ?_
  · rw [hblocks]
    exact h.range n hn
  · rw [hblocks] at hne ⊢
    have hn' : Live fs n := by
      rcases hlive with hlive | hlive
      · exact hmode hlive
      · exact Or.inr hlive
    exact ⟨h.owned n hn' hne,
      fun k hk hlive' => Ne.symm (h.exclusive n k (Ne.symm hk) hn' hlive' hne)⟩

/-- Other blocks of memory do not matter. -/
theorem setBlocks (h : Ownership fs) (m : ByteMem) : Ownership { fs with blocks := m } :=
  ⟨h.reserved, h.root, h.range, h.owned, h.exclusive⟩

/-- Taking one more block. -/
theorem setBit (h : Ownership fs) {fs' : AbyssFs} (hb : b < 64) (hinodes : fs'.inodes = fs.inodes)
    (hbitmap : fs'.blockBitmap = fs.blockBitmap ||| bit 64 b) : Ownership fs' := by
  have hset : ∀ i, fs.blockBitmap.getLsbD i = true → fs'.blockBitmap.getLsbD i = true := by
    intro i hi
    rw [hbitmap, getLsbD_or_bit hb, hi, Bool.true_or]
  have hlive : ∀ k, Live fs' k → Live fs k := fun k hk => by rwa [Live, hinodes] at hk
  refine ⟨fun i hi => hset i (h.reserved i hi), hinodes ▸ h.root, hinodes ▸ h.range, ?_, ?_⟩
  · intro k hk hne
    rw [hinodes] at hne ⊢
    exact hset _ (h.owned k (hlive k hk) hne)
  · intro j k hjk hj hk hne
    rw [hinodes] at hne ⊢
    exact h.exclusive j k hjk (hlive j hj) (hlive k hk) hne

/-- A block no live inode has may be given back, if it is not reserved. -/
theorem freeBlock (h : Ownership fs) (hb : rootBlock < b)
    (hfree : ∀ k, Live fs k → (fs.inodes k).blocks ≠ b) : Ownership (OsArm.freeBlock fs b) := by
  unfold OsArm.freeBlock
  split
  case isFalse => exact h
  case isTrue =>
    have hkeep : ∀ i, i ≠ b → fs.blockBitmap.getLsbD i = true →
        (fs.blockBitmap &&& ~~~bit 64 b).getLsbD i = true := by
      intro i hib hi
      rw [getLsbD_and_not_bit, hi, decide_eq_false hib]
      rfl
    exact ⟨fun i hi => hkeep i (by omega) (h.reserved i hi), h.root, h.range,
      fun k hk hne => hkeep _ (hfree k hk) (h.owned k hk hne), h.exclusive⟩

/-! ## The updates the operations make -/

/-- A block fresh from `alloc_block` is nobody's. -/
theorem ne_of_free (h : Ownership fs) (hb : fs.blockBitmap.getLsbD b = false) (hpos : b ≠ 0)
    (hk : Live fs k) : (fs.inodes k).blocks ≠ b := by
  rintro rfl
  rw [h.owned k hk hpos] at hb
  cases hb

/-- A freshly allocated data block lies behind the root block. -/
theorem root_lt_of_free (h : Ownership fs) (hb : fs.blockBitmap.getLsbD b = false) :
    rootBlock < b := by
  by_contra hle
  rw [h.reserved b (by omega)] at hb
  cases hb

/-- **`alloc_block` never hands out a block a live inode still owns**, nor the
root block. -/
theorem allocBlock_fresh (h : Ownership fs) (hb : (allocBlock fs).1 ≠ 0) :
    rootBlock < (allocBlock fs).1 ∧ (allocBlock fs).1 < totalBlocks ∧
      ∀ k, Live fs k → (fs.inodes k).blocks ≠ (allocBlock fs).1 := by
  rcases allocBlock_spec fs with hnone | ⟨b, hb', -, hlt, hfree, -, -, -⟩
  · rw [hnone] at hb
    exact absurd rfl hb
  · rw [hb'] at hb ⊢
    exact ⟨h.root_lt_of_free hfree, hlt, fun k hk => h.ne_of_free hfree hb hk⟩

theorem allocBlock (h : Ownership fs) : Ownership (OsArm.allocBlock fs).2 := by
  rcases allocBlock_spec fs with hnone | ⟨b, -, -, hlt, -, -, hinodes, hbitmap⟩
  · rw [hnone]
    exact h
  · exact h.setBit (by rwa [totalBlocks] at hlt) hinodes hbitmap

/-- `alloc_inode` never hands out the root's inode. -/
theorem allocInode_ne_root (h : Ownership fs) : (OsArm.allocInode fs).1 ≠ 1 := by
  rcases allocInode_spec fs with hnone | ⟨i, hi, -, -, hmode⟩
  · rw [hnone]
    exact Nat.zero_ne_one
  · rw [hi]
    rintro rfl
    rw [h.root.1] at hmode
    exact absurd hmode (by decide)

theorem allocInode (h : Ownership fs) : Ownership (OsArm.allocInode fs).2 := by
  have hne := h.allocInode_ne_root
  rcases allocInode_spec fs with hnone | ⟨i, hi, -, -, -⟩
  · rw [hnone]
    exact h
  · rw [hi] at hne ⊢
    exact h.setInode hne (Or.inl rfl) fun hb => absurd rfl hb

/-- Giving a freshly allocated block to an inode other than the root. -/
theorem assign (h : Ownership fs) (hn : n ≠ 1) (hb : (OsArm.allocBlock fs).1 ≠ 0)
    (hnode : node.blocks = (OsArm.allocBlock fs).1) :
    Ownership ((OsArm.allocBlock fs).2.setInode n node) := by
  obtain ⟨hroot, hlt, hfresh⟩ := h.allocBlock_fresh hb
  have h' := h.allocBlock
  rcases allocBlock_spec fs with hnone | ⟨b, hb', -, hlt64, hfree, -, hinodes, hbitmap⟩
  · rw [hnone] at hb
    exact absurd rfl hb
  refine h'.setInode hn (Or.inr (by rw [hnode]; exact ⟨hroot, hlt⟩)) fun _ _ => ⟨?_, ?_⟩
  · rw [hnode, hb', hbitmap, getLsbD_or_bit (by rwa [totalBlocks] at hlt64)]
    simp
  · intro k _ hk
    rw [Live, hinodes] at hk
    rw [hnode, hinodes]
    exact hfresh k hk

/-- Taking a live inode other than the root out of use, and its block with it. -/
theorem release (h : Ownership fs) (hn : n ≠ 1) (hn0 : n ≠ 0) (hmax : n < maxInodes)
    (hlive : Live fs n) : Ownership (releaseInode fs n) := by
  rw [releaseInode, getInode_of_lt hmax]
  have h' : Ownership (fs.setInode n { fs.inodes n with mode := 0 }) :=
    h.setInode_same hn rfl fun hm => absurd rfl hm
  dsimp only
  split
  case isFalse => exact h'
  case isTrue hb =>
    have hroot : rootBlock < (fs.inodes n).blocks := by
      rcases h.range n hn with h0 | h0
      · exact absurd h0 hb
      · exact h0.1
    refine h'.freeBlock hroot ?_
    intro k hk
    -- the inode itself is dead now, and no other live inode had its block
    by_cases hkn : k = n
    · subst hkn
      rw [Live, setInode_self] at hk
      rcases hk with hk | hk
      · exact absurd rfl hk
      · exact absurd hk hn0
    · rw [live_setInode_of_ne hkn] at hk
      rw [setInode_of_ne hkn]
      exact Ne.symm (h.exclusive n k (Ne.symm hkn) hlive hk hb)

end Ownership

/-! ## Writes -/

/-- **What `abyssfs_write` does.**  Nothing, or it stores into one block, the one
the inode has or a fresh one if it has none, and rewrites that inode. -/
theorem abyssfsWrite_spec (fs : AbyssFs) (file : VfsFile) (buf : List UInt8) :
    (abyssfsWrite fs file buf).2 = fs ∨ ∃ (fs₁ : AbyssFs) (b : Nat) (node : Inode),
      (fs₁ = fs ∧ (fs.inodes file.privateData).blocks = b ∨
        (fs.inodes file.privateData).blocks = 0 ∧ fs₁ = (allocBlock fs).2 ∧
          (allocBlock fs).1 = b) ∧ b ≠ 0 ∧
      node.blocks = b ∧ node.mode = (fs.inodes file.privateData).mode ∧
      (abyssfsWrite fs file buf).2 =
        storeBlock (fs₁.setInode file.privateData node) b buf (min buf.length blockSize) := by
  have hmin : (if buf.length > blockSize then blockSize else buf.length) =
      min buf.length blockSize := by
    split <;> omega
  unfold abyssfsWrite
  cases hget : getInode fs file.privateData with
  | none => exact Or.inl rfl
  | some inode =>
    simp only [writeToBlocks, hmin]
    by_cases hb : (fs.inodes file.privateData).blocks = 0
    · rw [if_pos hb]
      by_cases hzero : (allocBlock fs).1 = 0
      · refine Or.inl ?_
        rw [if_pos hzero, allocBlock_eq_of_zero hzero]
        rfl
      · rw [if_neg hzero]
        dsimp only
        set node : Inode := { fs.inodes file.privateData with blocks := (allocBlock fs).1 }
        refine Or.inr ⟨(allocBlock fs).2, (allocBlock fs).1, ?_⟩
        split
        · rw [setInode_storeBlock, setInode_setInode, storeBlock_inodes, setInode_self]
          exact ⟨{ node with size := (node.size + min buf.length blockSize) % 2 ^ 32 },
            Or.inr ⟨hb, rfl, rfl⟩, hzero, rfl, rfl, rfl⟩
        · exact ⟨node, Or.inr ⟨hb, rfl, rfl⟩, hzero, rfl, rfl, rfl⟩
    · rw [if_neg hb]
      dsimp only
      refine Or.inr ⟨fs, (fs.inodes file.privateData).blocks, ?_⟩
      split
      · rw [setInode_storeBlock, storeBlock_inodes]
        set node := fs.inodes file.privateData
        exact ⟨{ node with size := (node.size + min buf.length blockSize) % 2 ^ 32 },
          Or.inl ⟨rfl, rfl⟩, hb, rfl, rfl, rfl⟩
      · refine ⟨fs.inodes file.privateData, Or.inl ⟨rfl, rfl⟩, hb, rfl, rfl, ?_⟩
        rw [setInode_inodes]

namespace Ownership

variable {fs : AbyssFs} {file : VfsFile}

/-- **A write keeps the ownership invariant**, also through a handle of an inode
that is no longer in use. -/
theorem write (h : Ownership fs) (hfile : file.privateData ≠ 1) (buf : List UInt8) :
    Ownership (abyssfsWrite fs file buf).2 := by
  rcases abyssfsWrite_spec fs file buf with heq | ⟨fs₁, b, node, hblock, hb, hnode, hmode, heq⟩
  · rw [heq]
    exact h
  · rw [heq]
    refine setBlocks ?_ _
    rcases hblock with ⟨rfl, hsame⟩ | ⟨-, rfl, rfl⟩
    · exact h.setInode_same hfile (by rw [hnode, hsame]) fun hm => Or.inl (hmode ▸ hm)
    · exact h.assign hfile hb hnode

/-- **What a write leaves alone**: all other inodes, the mode of its own, and the
bytes outside one data block, which is its own, or no live inode has it. -/
theorem write_frame (h : Ownership fs) (hfile : file.privateData ≠ 1) (buf : List UInt8) :
    (∀ k, k ≠ file.privateData → (abyssfsWrite fs file buf).2.inodes k = fs.inodes k) ∧
      (∀ k, ((abyssfsWrite fs file buf).2.inodes k).mode = (fs.inodes k).mode) ∧
      ((abyssfsWrite fs file buf).2.blocks = fs.blocks ∨ ∃ b, rootBlock < b ∧
        (∀ x, x < b * blockSize ∨ (b + 1) * blockSize ≤ x →
          (abyssfsWrite fs file buf).2.blocks x = fs.blocks x) ∧
        ((fs.inodes file.privateData).blocks = b ∨ ∀ k, Live fs k → (fs.inodes k).blocks ≠ b)) := by
  rcases abyssfsWrite_spec fs file buf with heq | ⟨fs₁, b, node, hblock, hb, hnode, hmode, heq⟩
  · rw [heq]
    exact ⟨fun _ _ => rfl, fun _ => rfl, Or.inl rfl⟩
  · have hframe : fs₁.blocks = fs.blocks ∧ fs₁.inodes = fs.inodes := by
      rcases hblock with ⟨rfl, -⟩ | ⟨-, rfl, -⟩
      · exact ⟨rfl, rfl⟩
      · exact allocBlock_frame fs
    have hother : ∀ k, k ≠ file.privateData →
        (abyssfsWrite fs file buf).2.inodes k = fs.inodes k := by
      intro k hk
      rw [heq, ← hframe.2]
      exact setInode_of_ne hk
    refine ⟨hother, ?_, Or.inr ⟨b, ?_, ?_, ?_⟩⟩
    · intro k
      by_cases hk : k = file.privateData
      · rw [hk, heq, ← hmode]
        exact congrArg Inode.mode setInode_self
      · rw [hother k hk]
    · rcases hblock with ⟨-, hsame⟩ | ⟨-, -, hfresh⟩
      · rw [← hsame] at hb ⊢
        rcases h.range _ hfile with h0 | h0
        · exact absurd h0 hb
        · exact h0.1
      · rw [← hfresh] at hb ⊢
        exact (h.allocBlock_fresh hb).1
    · intro x hx
      rw [heq, ← hframe.1, storeBlock]
      dsimp only
      rw [memcpyTo_eq, ByteMem.blit_outside, setInode_blocks]
      rw [Nat.succ_mul] at hx
      omega
    · rcases hblock with ⟨-, hsame⟩ | ⟨-, -, hfresh⟩
      · exact Or.inl hsame
      · rw [← hfresh] at hb ⊢
        exact Or.inr (h.allocBlock_fresh hb).2.2

end Ownership

end OsArm
