import OsArm.Abyss.Appending
import OsArm.Abyss.Failures

/-!
# What becomes of the blocks and inodes of AbyssFS

`alloc_block` and `free_block` count in `abyssfs.sb.free_blocks`, `alloc_inode` does not count.
Two calls take something that no call gives back: a write through a handle whose file has been
removed before it had a block takes a block for an inode that is not in use, and `abyssfs_mkdir`
keeps its inode when there is no block left for it.

* `freeBits`, `ownedInodes`, `spareInodes` — the blocks that are free, the inodes in use with a
  block, the inodes not in use.
* `AbyssCall.lost`, `AbyssCall.wasted` — whether a call is one of the two.
* `AbyssCall.balance` — one call: blocks and inodes go from one account to another.
* `Separate` — no block and no inode is on two accounts.
* `ledger` — the books after a whole run.
-/

namespace OsArm

open BitSet

/-! ## Accounts -/

instance liveDecidable (fs : AbyssFs) (n : Nat) : Decidable (Live fs n) :=
  inferInstanceAs (Decidable ((fs.inodes n).mode ≠ 0 ∨ n = 0))

/-- The blocks whose bit is clear. -/
def freeBits (fs : AbyssFs) : Finset Nat :=
  (Finset.range totalBlocks).filter fun b => fs.blockBitmap.getLsbD b = false

/-- An inode other than the root's that is in use and has a block. -/
def Owns (fs : AbyssFs) (n : Nat) : Prop := n ≠ 1 ∧ Live fs n ∧ (fs.inodes n).blocks ≠ 0

instance ownsDecidable (fs : AbyssFs) (n : Nat) : Decidable (Owns fs n) :=
  inferInstanceAs (Decidable (n ≠ 1 ∧ Live fs n ∧ (fs.inodes n).blocks ≠ 0))

/-- The inodes that own a block. -/
def ownedInodes (fs : AbyssFs) : Finset Nat := (Finset.range maxInodes).filter (Owns fs)

/-- The inodes that `alloc_inode` may hand out. -/
def spareInodes (fs : AbyssFs) : Finset Nat :=
  (Finset.Ico 2 maxInodes).filter fun n => (fs.inodes n).mode = 0

/-- `abyssfs.sb.free_blocks` is one more than there are free blocks: `abyssfs_init` has not
counted the block of the root. -/
def Counted (fs : AbyssFs) : Prop := fs.freeBlocks = (freeBits fs).card + 1

namespace AbyssCall

/-- The blocks that a call takes for an inode that is not in use. -/
def lost (s : AbyssState) : AbyssCall → Nat
  | write k _ =>
    match s.handles[k]? with
    | none => 0
    | some file =>
      if file.privateData < maxInodes ∧ ¬ Live s.fs file.privateData ∧
        (s.fs.inodes file.privateData).blocks = 0 ∧ (allocBlock s.fs).1 ≠ 0 then 1 else 0
  | _ => 0

/-- The inodes that a call takes without an entry for them. -/
def wasted (s : AbyssState) : AbyssCall → Nat
  | mkdir _ =>
    if (allocInode s.fs).1 ≠ 0 ∧ (allocBlock (allocInode s.fs).2).1 = 0 then 1 else 0
  | _ => 0

/-- The sum of what the calls of a run take. -/
def total (cost : AbyssState → AbyssCall → Nat) : AbyssState → List AbyssCall → Nat
  | _, [] => 0
  | s, a :: tr => cost s a + total cost (a.apply s) tr

end AbyssCall

/-- **The books of a call**, with the number of entries before and after it, and what it takes for
good. -/
structure Balance (fs fs' : AbyssFs) (entries entries' lost wasted : Nat) : Prop where
  counted : Counted fs'
  blocks : (freeBits fs').card + (ownedInodes fs').card + lost =
    (freeBits fs).card + (ownedInodes fs).card
  inodes : (spareInodes fs').card + entries' + wasted = (spareInodes fs).card + entries

/-- One element changes sides. -/
theorem card_filter_change {p q : Nat → Prop} [DecidablePred p] [DecidablePred q]
    {s : Finset Nat} {i : Nat} (hi : i ∈ s) (h : ∀ k ∈ s, k ≠ i → (q k ↔ p k)) :
    (s.filter q).card + (if p i then 1 else 0) = (s.filter p).card + (if q i then 1 else 0) := by
  have hrest : ∑ k ∈ s.erase i, (if q k then 1 else 0) =
      ∑ k ∈ s.erase i, (if p k then 1 else 0) := by
    refine Finset.sum_congr rfl fun k hk => ?_
    obtain ⟨hne, hmem⟩ := Finset.mem_erase.1 hk
    exact if_congr (h k hmem hne) rfl rfl
  rw [Finset.card_filter, Finset.card_filter, ← Finset.add_sum_erase s _ hi,
    ← Finset.add_sum_erase s _ hi, hrest]
  omega

section Accounts

variable {fs fs' : AbyssFs} {i b : Nat} {file : VfsFile} {buf : List UInt8}

theorem freeBits_congr (hbitmap : fs'.blockBitmap = fs.blockBitmap) :
    freeBits fs' = freeBits fs := by
  rw [freeBits, hbitmap]
  rfl

theorem card_freeBits_le (fs : AbyssFs) : (freeBits fs).card ≤ 64 :=
  (Finset.card_filter_le _ _).trans (Nat.le_of_eq (Finset.card_range totalBlocks))

/-- The accounts of the inodes when only the inode `i` changes. -/
theorem accounts_update (fs fs' : AbyssFs) (hi : i < maxInodes)
    (hframe : ∀ k, k ≠ i → (fs'.inodes k).mode = (fs.inodes k).mode ∧
      (fs'.inodes k).blocks = (fs.inodes k).blocks) :
    (ownedInodes fs').card + (if Owns fs i then 1 else 0) =
        (ownedInodes fs).card + (if Owns fs' i then 1 else 0) ∧
      (2 ≤ i → (spareInodes fs').card + (if (fs.inodes i).mode = 0 then 1 else 0) =
        (spareInodes fs).card + (if (fs'.inodes i).mode = 0 then 1 else 0)) ∧
      ((fs'.inodes i).mode = (fs.inodes i).mode → spareInodes fs' = spareInodes fs) := by
  refine ⟨card_filter_change (Finset.mem_range.2 hi) ?_, fun hle => ?_, fun hmode => ?_⟩
  · intro k _ hk
    rw [Owns, Owns, Live, Live, (hframe k hk).1, (hframe k hk).2]
  · refine card_filter_change (p := fun n => (fs.inodes n).mode = 0)
      (q := fun n => (fs'.inodes n).mode = 0)
      (Finset.mem_Ico.2 ⟨hle, hi⟩) ?_
    intro k _ hk
    rw [(hframe k hk).1]
  · refine Finset.filter_congr fun k _ => ?_
    by_cases hk : k = i
    · rw [hk, hmode]
    · rw [(hframe k hk).1]

/-- Nothing changes in the accounts when no mode, no block number and no bit does. -/
theorem accounts_congr (fs fs' : AbyssFs) (hframe : ∀ k, (fs'.inodes k).mode = (fs.inodes k).mode ∧
    (fs'.inodes k).blocks = (fs.inodes k).blocks) :
    ownedInodes fs' = ownedInodes fs ∧ spareInodes fs' = spareInodes fs := by
  constructor
  · refine Finset.filter_congr fun k _ => ?_
    rw [Owns, Owns, Live, Live, (hframe k).1, (hframe k).2]
  · refine Finset.filter_congr fun k _ => ?_
    rw [(hframe k).1]

/-! ## The allocators -/

/-- **`alloc_block`** takes one of the free blocks and counts it. -/
theorem allocBlock_counted (hcount : Counted fs) (hb : (allocBlock fs).1 ≠ 0) :
    Counted (allocBlock fs).2 ∧ (freeBits (allocBlock fs).2).card + 1 = (freeBits fs).card := by
  have hfree : (allocBlock fs).2.freeBlocks = (fs.freeBlocks + (2 ^ 32 - 1)) % 2 ^ 32 := by
    unfold allocBlock at hb ⊢
    split
    · rfl
    · next hnone =>
      rw [hnone] at hb
      exact absurd rfl hb
  rcases allocBlock_spec fs with hnone | ⟨b, -, -, hlt, hclear, -, -, hbitmap⟩
  · rw [hnone] at hb
    exact absurd rfl hb
  · have hlt' : b < 64 := hlt
    have hset : (allocBlock fs).2.blockBitmap.getLsbD b = true := by
      rw [hbitmap, getLsbD_or_bit hlt']
      simp
    have hcard := card_filter_change (p := fun b => fs.blockBitmap.getLsbD b = false)
      (q := fun b => (allocBlock fs).2.blockBitmap.getLsbD b = false)
        (Finset.mem_range.2 hlt) fun k _ hk => by
        rw [hbitmap, getLsbD_or_bit hlt', decide_eq_false hk, Bool.or_false]
    rw [if_pos hclear, if_neg (by rw [hset]; decide), Nat.add_zero] at hcard
    have hle := card_freeBits_le fs
    have hcard' : (freeBits (allocBlock fs).2).card + 1 = (freeBits fs).card := hcard
    refine ⟨?_, hcard'⟩
    rw [Counted] at hcount ⊢
    rw [hfree, hcount]
    omega

/-- **`free_block`** of a block that is taken. -/
theorem freeBlock_counted (hcount : Counted fs) (hb : b < totalBlocks)
    (hset : fs.blockBitmap.getLsbD b = true) :
    Counted (freeBlock fs b) ∧ (freeBits (freeBlock fs b)).card = (freeBits fs).card + 1 := by
  have hcall : freeBlock fs b = { fs with
      blockBitmap := fs.blockBitmap &&& ~~~bit 64 b
      freeBlocks := (fs.freeBlocks + 1) % 2 ^ 32 } := if_pos hb
  rw [hcall]
  have hclear : (fs.blockBitmap &&& ~~~bit 64 b).getLsbD b = false := by
    rw [getLsbD_and_not_bit]
    simp
  have hcard := card_filter_change (p := fun b => fs.blockBitmap.getLsbD b = false)
    (q := fun k => (fs.blockBitmap &&& ~~~bit 64 b).getLsbD k = false)
    (Finset.mem_range.2 hb) fun k _ hk => by
      rw [getLsbD_and_not_bit, decide_eq_false hk, Bool.not_false, Bool.and_true]
  rw [if_pos hclear, if_neg (by rw [hset]; decide), Nat.add_zero] at hcard
  have hle := card_freeBits_le fs
  refine ⟨?_, hcard⟩
  rw [Counted] at hcount ⊢
  have hcard' : (freeBits { fs with
      blockBitmap := fs.blockBitmap &&& ~~~bit 64 b
      freeBlocks := (fs.freeBlocks + 1) % 2 ^ 32 }).card = (freeBits fs).card + 1 := hcard
  rw [hcard', hcount]
  dsimp only
  omega

/-- `create_file` allocates nothing. -/
theorem createFile_space (fs : AbyssFs) (cwd name : Str) (i : Nat) :
    (createFile fs cwd name i).2.blockBitmap = fs.blockBitmap ∧
      (createFile fs cwd name i).2.freeBlocks = fs.freeBlocks := by
  unfold createFile
  split
  · exact ⟨rfl, rfl⟩
  · dsimp only
    split
    · exact ⟨rfl, rfl⟩
    · split <;> exact ⟨rfl, rfl⟩

theorem abyssfsCreate_space (heap : Heap) (fs : AbyssFs) (cwd path : Str) :
    (abyssfsCreate heap fs cwd path).2.2.blockBitmap = fs.blockBitmap ∧
      (abyssfsCreate heap fs cwd path).2.2.freeBlocks = fs.freeBlocks := by
  have halloc : (allocInode fs).2.blockBitmap = fs.blockBitmap ∧
      (allocInode fs).2.freeBlocks = fs.freeBlocks := by
    rcases allocInode_spec fs with hnone | ⟨i, hi, -⟩
    · rw [hnone]
      exact ⟨rfl, rfl⟩
    · rw [hi]
      exact ⟨rfl, rfl⟩
  have hfile := createFile_space (allocInode fs).2 cwd (path.dropWhile (· = slash))
    (allocInode fs).1
  rw [halloc.1, halloc.2] at hfile
  unfold abyssfsCreate
  dsimp only
  split
  · exact halloc
  · split
    · exact hfile
    · split <;> exact hfile

/-! ## One call -/

/-- A call that moves nothing. -/
theorem Balance.still (hcount : Counted fs)
    (hframe : ∀ k, (fs'.inodes k).mode = (fs.inodes k).mode ∧
      (fs'.inodes k).blocks = (fs.inodes k).blocks) (hbitmap : fs'.blockBitmap = fs.blockBitmap)
    (hfree : fs'.freeBlocks = fs.freeBlocks) (entries : Nat) :
    Balance fs fs' entries entries 0 0 := by
  obtain ⟨howned, hspare⟩ := accounts_congr _ _ hframe
  refine ⟨?_, ?_, ?_⟩
  · rw [Counted, freeBits_congr hbitmap, hfree]
    exact hcount
  · rw [freeBits_congr hbitmap, howned, Nat.add_zero]
  · rw [hspare, Nat.add_zero]

/-- `alloc_inode` takes an inode, which has no block yet. -/
theorem accounts_take (fs fs' : AbyssFs) (h2 : 2 ≤ i) (hi : i < maxInodes)
    (hmode : (fs.inodes i).mode = 0)
    (hinodes : fs'.inodes = (fs.setInode i { Inode.zero with mode := 0x1FF }).inodes) :
    (ownedInodes fs').card = (ownedInodes fs).card ∧
      (spareInodes fs').card + 1 = (spareInodes fs).card := by
  have hnode : fs'.inodes i = { Inode.zero with mode := 0x1FF } := by rw [hinodes, setInode_self]
  obtain ⟨howned, hspare, -⟩ := accounts_update fs fs' hi fun k hk => by
    rw [hinodes, setInode_of_ne hk]
    exact ⟨rfl, rfl⟩
  have hold : ¬ Owns fs i := by
    rintro ⟨-, hlive | h0, -⟩
    · exact hlive hmode
    · omega
  have hnew : ¬ Owns fs' i := fun h => h.2.2 (by rw [hnode]; rfl)
  rw [if_neg hold, if_neg hnew] at howned
  have hspare := hspare h2
  rw [if_pos hmode, if_neg (by rw [hnode]; decide), Nat.add_zero] at hspare
  exact ⟨by omega, hspare⟩

/-- An inode that had no block gets one. -/
theorem accounts_give (hi1 : i ≠ 1) (hi : i < maxInodes)
    (hframe : ∀ k, k ≠ i → fs'.inodes k = fs.inodes k)
    (hmode : (fs'.inodes i).mode = 0 ↔ (fs.inodes i).mode = 0) (hblocks : (fs.inodes i).blocks = 0)
    (hblocks' : (fs'.inodes i).blocks ≠ 0) :
    (ownedInodes fs').card = (ownedInodes fs).card + (if Live fs i then 1 else 0) ∧
      (2 ≤ i → (spareInodes fs').card = (spareInodes fs).card) := by
  obtain ⟨howned, hspare, -⟩ := accounts_update fs fs' hi fun k hk => by
    rw [hframe k hk]
    exact ⟨rfl, rfl⟩
  have hold : ¬ Owns fs i := fun h => h.2.2 hblocks
  have hnew : Owns fs' i ↔ Live fs i := by
    have hused : (fs'.inodes i).mode ≠ 0 ↔ (fs.inodes i).mode ≠ 0 := not_congr hmode
    rw [Owns, Live, Live, hused]
    exact ⟨fun h => h.2.1, fun h => ⟨hi1, h, hblocks'⟩⟩
  rw [if_neg hold, if_congr hnew rfl rfl, Nat.add_zero] at howned
  refine ⟨howned, fun h2 => ?_⟩
  have hspare := hspare h2
  rw [if_congr hmode rfl rfl] at hspare
  omega

/-- **`abyssfs_create`**, and `abyssfs_mkdir` without a block: an inode is taken. -/
theorem Balance.take (hcount : Counted fs) (h2 : 2 ≤ i) (hi : i < maxInodes)
    (hmode : (fs.inodes i).mode = 0)
    (hinodes : fs'.inodes = (fs.setInode i { Inode.zero with mode := 0x1FF }).inodes)
    (hbitmap : fs'.blockBitmap = fs.blockBitmap) (hfree : fs'.freeBlocks = fs.freeBlocks)
    {entries entries' wasted : Nat} (hentries : entries' + wasted = entries + 1) :
    Balance fs fs' entries entries' 0 wasted := by
  obtain ⟨howned, hspare⟩ := accounts_take _ _ h2 hi hmode hinodes
  refine ⟨?_, ?_, ?_⟩
  · rw [Counted, freeBits_congr hbitmap, hfree]
    exact hcount
  · rw [freeBits_congr hbitmap, howned, Nat.add_zero]
  · omega

/-- **`abyssfs_mkdir`**: an inode and a block are taken. -/
theorem Balance.makeDir (hcount : Counted fs) (halloc : allocInode fs = (i, fs.setInode i
      { Inode.zero with mode := 0x1FF })) (h2 : 2 ≤ i) (hi : i < maxInodes)
        (hmode : (fs.inodes i).mode = 0)
    (hb : (allocBlock (allocInode fs).2).1 ≠ 0) (entries : Nat) (cwd name : Str) :
    Balance fs
      (createFile (initDir (allocBlock (allocInode fs).2).2 i (allocBlock (allocInode fs).2).1)
      cwd name i).2 entries (entries + 1) 0 0 := by
  obtain ⟨howned₁, hspare₁⟩ := accounts_take fs (allocInode fs).2 h2 hi hmode (by rw [halloc])
  have hcount₁ : Counted (allocInode fs).2 := by rw [halloc]; exact hcount
  have hbits₁ : freeBits (allocInode fs).2 = freeBits fs := freeBits_congr (by rw [halloc]; rfl)
  have hnode₁ : (allocInode fs).2.inodes i = { Inode.zero with mode := 0x1FF } := by
    rw [halloc, setInode_self]
  generalize (allocInode fs).2 = fs₁ at *
  obtain ⟨hcount₂, hbits₂⟩ := allocBlock_counted hcount₁ hb
  have hinodes₂ := (allocBlock_frame fs₁).2
  generalize hfs₃ : initDir (allocBlock fs₁).2 i (allocBlock fs₁).1 = fs₃
  have hnode₃ : fs₃.inodes i =
      { mode := (fs₁.inodes i).mode ||| 0x4000, size := blockSize,
        blocks := (allocBlock fs₁).1 } := by
    rw [← hfs₃]
    simp only [initDir, setInode_self, hinodes₂]
  have hframe₃ : ∀ k, k ≠ i → fs₃.inodes k = fs₁.inodes k := by
    intro k hk
    rw [← hfs₃]
    simp only [initDir]
    rw [setInode_of_ne hk, hinodes₂]
  have hspace₃ : fs₃.blockBitmap = (allocBlock fs₁).2.blockBitmap ∧
      fs₃.freeBlocks = (allocBlock fs₁).2.freeBlocks := by
    rw [← hfs₃]
    exact ⟨rfl, rfl⟩
  have hmode₁ : (fs₁.inodes i).mode = 0x1FF := by rw [hnode₁]
  have hmode₃ : (fs₃.inodes i).mode = 0x1FF ||| 0x4000 := by rw [hnode₃, ← hmode₁]
  obtain ⟨howned₃, hspare₃⟩ := accounts_give (by omega) hi hframe₃ (by rw [hmode₃, hmode₁]; decide)
    (by rw [hnode₁]; rfl) (by rw [hnode₃]; exact hb)
  have hlive₁ : Live fs₁ i := Or.inl (by rw [hmode₁]; decide)
  rw [if_pos hlive₁] at howned₃
  obtain ⟨hbitmap, hfree⟩ := createFile_space fs₃ cwd name i
  obtain ⟨howned, hspare⟩ := accounts_congr fs₃ (createFile fs₃ cwd name i).2 fun k => by
    rw [createFile_inodes]
    exact ⟨rfl, rfl⟩
  have hbits := freeBits_congr (hbitmap.trans hspace₃.1)
  have hspare₃ := hspare₃ h2
  rw [Counted] at hcount₂
  refine ⟨?_, ?_, ?_⟩
  · rw [Counted, hbits, hfree, hspace₃.2, hcount₂]
  · rw [hbits, howned, howned₃, howned₁]
    rw [hbits₁] at hbits₂
    omega
  · rw [hspare, hspare₃]
    omega

/-- **`abyssfs_unlink`** of an entry gives its inode back, and the block if there is one. -/
theorem Balance.release (hown : Ownership fs) (hcount : Counted fs) (h2 : 2 ≤ i)
    (hi : i < maxInodes) (hmode : (fs.inodes i).mode ≠ 0) (m : ByteMem) (entries : Nat) :
    Balance fs { releaseInode fs i with blocks := m } (entries + 1) entries 0 0 := by
  have hlive : Live fs i := Or.inl hmode
  generalize hfs₁ : fs.setInode i { fs.inodes i with mode := 0 } = fs₁
  have hcall : releaseInode fs i = if (fs.inodes i).blocks ≠ 0 then freeBlock fs₁
      (fs.inodes i).blocks else fs₁ := by
    rw [releaseInode, getInode_of_lt hi, ← hfs₁]
  have hnode : (fs₁.inodes i).mode = 0 := by rw [← hfs₁, setInode_self]
  have hframe : ∀ k, k ≠ i → fs₁.inodes k = fs.inodes k := by
    intro k hk
    rw [← hfs₁, setInode_of_ne hk]
  have hbitmap : fs₁.blockBitmap = fs.blockBitmap := by rw [← hfs₁]; rfl
  have hcount₁ : Counted fs₁ := by
    rw [Counted, freeBits_congr hbitmap, ← hfs₁]
    exact hcount
  have hnew : ¬ Owns fs₁ i := by
    rintro ⟨-, hm | h0, -⟩
    · exact hm hnode
    · omega
  obtain ⟨howned, hspare, -⟩ := accounts_update fs fs₁ hi fun k hk => by
    rw [hframe k hk]
    exact ⟨rfl, rfl⟩
  have hspare := hspare h2
  rw [if_neg hmode, if_pos hnode, Nat.add_zero] at hspare
  rw [if_neg hnew, Nat.add_zero] at howned
  by_cases hb : (fs.inodes i).blocks = 0
  · rw [if_neg fun h => h.2.2 hb] at howned
    rw [if_neg (not_not.2 hb)] at hcall
    rw [hcall]
    refine ⟨hcount₁, ?_, ?_⟩
    · have hbits : freeBits { fs₁ with blocks := m } = freeBits fs := freeBits_congr hbitmap
      have hsame : ownedInodes { fs₁ with blocks := m } = ownedInodes fs₁ := rfl
      rw [hbits, hsame]
      omega
    · have hsame : spareInodes { fs₁ with blocks := m } = spareInodes fs₁ := rfl
      rw [hsame]
      omega
  · have howns : Owns fs i := ⟨by omega, hlive, hb⟩
    rw [if_pos howns] at howned
    rw [if_pos hb] at hcall
    have hlt : (fs.inodes i).blocks < totalBlocks := by
      rcases hown.range i (by omega) with h0 | h0
      · exact absurd h0 hb
      · exact h0.2
    obtain ⟨hcount₂, hbits₂⟩ := freeBlock_counted hcount₁ hlt (by
      rw [hbitmap]
      exact hown.owned i hlive hb)
    have hinodes : (freeBlock fs₁ (fs.inodes i).blocks).inodes = fs₁.inodes := by
      rw [freeBlock, if_pos hlt]
    rw [hcall]
    generalize freeBlock fs₁ (fs.inodes i).blocks = fs₂ at *
    obtain ⟨howned₂, hspare₂⟩ := accounts_congr fs₁ { fs₂ with blocks := m } fun k => by
      simp only [hinodes]
      exact ⟨trivial, trivial⟩
    have hbits : (freeBits { fs₂ with blocks := m }).card = (freeBits fs).card + 1 := by
      rw [← freeBits_congr hbitmap]
      exact hbits₂
    refine ⟨hcount₂, ?_, ?_⟩
    · rw [hbits, howned₂]
      omega
    · rw [hspare₂]
      omega

/-- **`abyssfs_write`** takes a block for an inode that has none; for an inode that is not in use
it is lost. -/
theorem Balance.write (hcount : Counted fs) (hn : file.privateData ≠ 1) (buf : List UInt8)
    (entries : Nat) :
    Balance fs (abyssfsWrite fs file buf).2 entries entries
      (if file.privateData < maxInodes ∧ ¬ Live fs file.privateData ∧
        (fs.inodes file.privateData).blocks = 0 ∧ (allocBlock fs).1 ≠ 0 then 1 else 0) 0 := by
  have hsame : ∀ k, (fs.inodes k).mode = (fs.inodes k).mode ∧
      (fs.inodes k).blocks = (fs.inodes k).blocks :=
    fun _ => ⟨rfl, rfl⟩
  by_cases hlt : file.privateData < maxInodes
  swap
  · have hcall : (abyssfsWrite fs file buf).2 = fs := by
      rw [abyssfsWrite, getInode, if_pos (Nat.not_lt.1 hlt)]
    rw [hcall, if_neg fun h => hlt h.1]
    exact .still hcount hsame rfl rfl entries
  by_cases hb : (fs.inodes file.privateData).blocks = 0
  swap
  · -- it has a block
    rw [if_neg fun h => hb h.2.2.1]
    rcases abyssfsWrite_spec fs file buf with heq | ⟨fs₁, b, node, hblock, -, hnode, hmode, heq⟩
    · rw [heq]
      exact .still hcount hsame rfl rfl entries
    · obtain ⟨rfl, hold⟩ : fs₁ = fs ∧ (fs.inodes file.privateData).blocks = b := by
        rcases hblock with h | ⟨h0, -⟩
        · exact h
        · exact absurd h0 hb
      rw [heq]
      refine .still hcount ?_ ?_ ?_ entries
      · intro k
        rw [storeBlock_inodes]
        by_cases hk : k = file.privateData
        · rw [hk, setInode_self, hmode, hnode, hold]
          exact ⟨rfl, rfl⟩
        · rw [setInode_of_ne hk]
          exact ⟨rfl, rfl⟩
      · rfl
      · rfl
  by_cases hzero : (allocBlock fs).1 = 0
  · have hcall : (abyssfsWrite fs file buf).2 = fs := by
      rcases abyssfsWrite_spec fs file buf with heq | ⟨fs₁, b, node, hblock, hne, -⟩
      · exact heq
      · rcases hblock with ⟨-, h⟩ | ⟨-, -, h⟩
        · exact absurd (h.symm.trans hb) hne
        · exact absurd (h.symm.trans hzero) hne
    rw [hcall, if_neg fun h => h.2.2.2 hzero]
    exact .still hcount hsame rfl rfl entries
  · obtain ⟨hcount', hbits⟩ := allocBlock_counted hcount hzero
    have hinodes := (allocBlock_frame fs).2
    have hblock : ((abyssfsWrite fs file buf).2.inodes file.privateData).blocks =
        (allocBlock fs).1 := by
      simp only [abyssfsWrite, getInode_of_lt hlt, writeToBlocks, if_pos hb, if_neg hzero]
      generalize (if buf.length > blockSize then blockSize else buf.length) = count
      split <;> simp
    obtain ⟨node, hmode, heq⟩ : ∃ node : Inode, node.mode = (fs.inodes file.privateData).mode ∧
        (abyssfsWrite fs file buf).2 = storeBlock ((allocBlock fs).2.setInode file.privateData node)
          (allocBlock fs).1 buf (min buf.length blockSize) := by
      rcases abyssfsWrite_spec fs file buf with heq | ⟨fs₁, b, node, hfrom, hne, -, hmode, heq⟩
      · rw [heq, hb] at hblock
        exact absurd hblock.symm hzero
      · rcases hfrom with ⟨-, h⟩ | ⟨-, rfl, rfl⟩
        · exact absurd (h.symm.trans hb) hne
        · exact ⟨node, hmode, heq⟩
    have hspace : (abyssfsWrite fs file buf).2.blockBitmap = (allocBlock fs).2.blockBitmap ∧
        (abyssfsWrite fs file buf).2.freeBlocks = (allocBlock fs).2.freeBlocks := by
      rw [heq]
      exact ⟨rfl, rfl⟩
    have hframe : ∀ k, k ≠ file.privateData →
        (abyssfsWrite fs file buf).2.inodes k = fs.inodes k := by
      intro k hk
      rw [heq, storeBlock_inodes, setInode_of_ne hk, hinodes]
    have hmode : ((abyssfsWrite fs file buf).2.inodes file.privateData).mode =
        (fs.inodes file.privateData).mode := by
      rw [heq, storeBlock_inodes, setInode_self, hmode]
    obtain ⟨howned, -⟩ := accounts_give hn hlt hframe (by rw [hmode]) hb
      (by rw [hblock]; exact hzero)
    obtain ⟨-, -, hspare⟩ := accounts_update fs (abyssfsWrite fs file buf).2 hlt fun k hk => by
      rw [hframe k hk]
      exact ⟨rfl, rfl⟩
    have hbits' : freeBits (abyssfsWrite fs file buf).2 = freeBits (allocBlock fs).2 :=
      freeBits_congr hspace.1
    refine ⟨?_, ?_, by rw [hspare hmode, Nat.add_zero]⟩
    · rw [Counted, hbits', hspace.2]
      exact hcount'
    · rw [hbits', howned]
      by_cases hlive : Live fs file.privateData
      · rw [if_pos hlive, if_neg fun h => h.2.1 hlive]
        omega
      · rw [if_neg hlive, if_pos ⟨hlt, hlive, hb, hzero⟩]
        omega

end Accounts

/-- **One call.** -/
theorem AbyssCall.balance {s : AbyssState} {rs : List DirRecord} (h : RootInv s.fs rs)
    (hh : HandlesOk s) (hcount : Counted s.fs) {a : AbyssCall}
    (hfits : a.Fits (rs.map DirRecord.toDirent)) :
    ∃ rs', RootInv (a.apply s).fs rs' ∧
      Balance s.fs (a.apply s).fs rs.length rs'.length (a.lost s) (a.wasted s) := by
  have hspan := h.dir.span_eq
  have hsame : ∀ k, (s.fs.inodes k).mode = (s.fs.inodes k).mode ∧
      (s.fs.inodes k).blocks = (s.fs.inodes k).blocks := fun _ => ⟨rfl, rfl⟩
  have hstill : Balance s.fs s.fs rs.length rs.length 0 0 := .still hcount hsame rfl rfl rs.length
  cases a with
  | create n =>
    have hroom : 20 + dirFormat.span rs + recSize n.bytes.length ≤ 4088 := by
      rw [hspan]
      exact hfits
    rcases h.create s.heap n hroom with ⟨-, hnone⟩ | ⟨i, hi, halloc, -, h2, hinv⟩
    · refine ⟨rs, ?_, ?_⟩
      · simp only [AbyssCall.apply, hnone]
        exact h
      · simp only [AbyssCall.apply, hnone]
        exact hstill
    · refine ⟨rs ++ [n.record i hi], hinv, ?_⟩
      rcases allocInode_spec s.fs with hnone | ⟨i', hi', -, -, hmode⟩
      · rw [hnone] at halloc
        dsimp only at halloc
        omega
      · obtain rfl : i' = i := by rw [← halloc, hi']
        obtain ⟨hbitmap, hfree⟩ := abyssfsCreate_space s.heap s.fs [slash] n.bytes
        refine .take hcount h2 hi hmode ?_ hbitmap hfree (by simp [AbyssCall.wasted])
        exact (abyssfsCreate_inodes _ _ _ _).trans (by rw [hi'])
  | mkdir n =>
    have hroom : 20 + dirFormat.span rs + recSize n.bytes.length ≤ 4088 := by
      rw [hspan]
      exact hfits
    rcases h.kept.allocInode with hnone | ⟨i, hi, h2, hlt, hmode, -⟩
    · -- no inode
      have hcall : abyssfsMkdir s.fs [slash] n.bytes = (-1, s.fs) := by
        simp only [abyssfsMkdir, hnone, if_true]
      refine ⟨rs, ?_, ?_⟩
      · rw [AbyssCall.apply_mkdir, hcall]
        exact h
      · rw [AbyssCall.apply_mkdir, hcall, AbyssCall.wasted, hnone, if_neg fun h => h.1 rfl]
        exact hstill
    have hne : (allocInode s.fs).1 ≠ 0 := by
      rw [hi]
      dsimp only
      omega
    by_cases hb : (allocBlock (allocInode s.fs).2).1 = 0
    · -- an inode, and no block
      have hcall : abyssfsMkdir s.fs [slash] n.bytes = (-1, (allocInode s.fs).2) := by
        simp only [abyssfsMkdir, if_neg hne, allocBlock_eq_of_zero hb, if_true]
      have hkept := h.mkdir n hroom
      rw [hcall] at hkept
      have hneg : (-1 : Int) ≠ 0 := by decide
      rcases hkept with ⟨-, hinv⟩ | ⟨_, _, -, -, hret, -⟩
      · refine ⟨rs, ?_, ?_⟩
        · rw [AbyssCall.apply_mkdir, hcall]
          exact hinv
        · rw [AbyssCall.apply_mkdir, hcall, AbyssCall.wasted, if_pos ⟨hne, hb⟩]
          exact .take hcount h2 hlt hmode (by rw [hi]) (by rw [hi]; rfl) (by rw [hi]; rfl) rfl
      · exact absurd hret hneg
    · have hdir : FindsDir (initDir (allocBlock (allocInode s.fs).2).2 (allocInode s.fs).1
          (allocBlock (allocInode s.fs).2).1) [slash] := ⟨1, rfl, Or.inr rfl⟩
      have hbase : basename (n.bytes.dropWhile (· = slash)) = n.bytes := n.basename_strip
      have hcall : abyssfsMkdir s.fs [slash] n.bytes = (0, (createFile (initDir (allocBlock
          (allocInode s.fs).2).2 (allocInode s.fs).1 (allocBlock (allocInode s.fs).2).1)
            [slash] n.bytes
          (allocInode s.fs).1).2) := by
        have hret : ¬ (createFile (initDir (allocBlock (allocInode s.fs).2).2 (allocInode s.fs).1
            (allocBlock (allocInode s.fs).2).1) [slash] n.bytes (allocInode s.fs).1).1 < 0 :=
          fun hneg => createFile_neg_iff.1 hneg hdir
        simp only [abyssfsMkdir, if_neg hne, if_neg hb, hbase, if_neg hret]
      have hkept := h.mkdir n hroom
      rw [hcall] at hkept
      have hzero : (0 : Int) ≠ -1 := by decide
      rcases hkept with ⟨hret, -⟩ | ⟨i', hi', halloc, -, -, hinv⟩
      · exact absurd hret hzero
      · refine ⟨rs ++ [n.record i' hi'], ?_, ?_⟩
        · rw [AbyssCall.apply_mkdir, hcall]
          exact hinv
        · have hbalance := Balance.makeDir hcount hi h2 hlt hmode hb rs.length [slash] n.bytes
          have hfirst : (allocInode s.fs).1 = i := by rw [hi]
          rw [AbyssCall.apply_mkdir, hcall, AbyssCall.wasted, if_neg fun h => hb h.2, hfirst,
            List.length_append, List.length_singleton]
          exact hbalance
  | unlink n =>
    rcases cut_at_name rs n.bytes with hno | ⟨us, r, ts, rfl, hr, hno⟩
    · have hcall := h.unlink_none n hno
      refine ⟨rs, ?_, ?_⟩
      · simp only [AbyssCall.apply, hcall]
        exact h
      · simp only [AbyssCall.apply, hcall]
        exact hstill
    · obtain ⟨-, hinv⟩ := h.unlink_some n hr hno
      obtain ⟨h2, hlt, hmode⟩ := h.live r (by simp)
      have hcall := h.dir.unlink_some (n.dropWhile_slash.trans hr.symm) (hr ▸ n.ne_dots) (hr ▸ hno)
      have hlen : (us ++ r :: ts).length = (us ++ ts).length + 1 := by simp; omega
      refine ⟨us ++ ts, hinv, ?_⟩
      simp only [AbyssCall.apply, hcall, hlen]
      exact .release h.own hcount h2 hlt hmode _ _
  | openPath path => exact ⟨rs, h, hstill⟩
  | write k buf =>
    cases hk : s.handles[k]? with
    | none =>
      refine ⟨rs, ?_, ?_⟩
      · simp only [AbyssCall.apply, hk]
        exact h
      · simp only [AbyssCall.apply, AbyssCall.lost, hk]
        exact hstill
    | some file =>
      have hfile := hh file (List.mem_of_getElem? hk)
      refine ⟨rs, ?_, ?_⟩
      · simp only [AbyssCall.apply, hk]
        exact h.write hfile buf
      · simp only [AbyssCall.apply, AbyssCall.lost, hk]
        exact .write hcount hfile buf rs.length

/-! ## Whole runs -/

/-- The books of a run from any state with a well-formed root. -/
theorem balance_run {s t : AbyssState} {rs : List DirRecord} {tr : List AbyssCall}
    (h : RootInv s.fs rs) (hh : HandlesOk s) (hcount : Counted s.fs) (hrun : abyssLts.Run s tr t) :
    ∃ rs', RootInv t.fs rs' ∧ Balance s.fs t.fs rs.length rs'.length
      (AbyssCall.total AbyssCall.lost s tr)
      (AbyssCall.total AbyssCall.wasted s tr) := by
  induction tr generalizing s rs with
  | nil =>
    rw [Lts.run_nil_iff.1 hrun]
    exact ⟨rs, h, .still hcount (fun _ => ⟨rfl, rfl⟩) rfl rfl rs.length⟩
  | cons a tr ih =>
    obtain ⟨u, ⟨hfits, rfl⟩, hrest⟩ := Lts.run_cons_iff.1 hrun
    rw [h.rootEntries_eq] at hfits
    obtain ⟨-, -, hh', -⟩ := h.call hh hfits
    obtain ⟨rs₁, hinv₁, hbal₁⟩ := AbyssCall.balance h hh hcount hfits
    obtain ⟨rs₂, hinv₂, hbal₂⟩ := ih hinv₁ hh' hbal₁.counted hrest
    have hblocks₁ := hbal₁.blocks
    have hblocks₂ := hbal₂.blocks
    have hinodes₁ := hbal₁.inodes
    have hinodes₂ := hbal₂.inodes
    refine ⟨rs₂, hinv₂, hbal₂.counted, ?_, ?_⟩
    · rw [AbyssCall.total]
      omega
    · rw [AbyssCall.total]
      omega

/-- The books that `abyssfs_init` opens. -/
theorem books_init (m : ByteMem) : Counted (abyssfsInit m) ∧ (freeBits (abyssfsInit m)).card = 54 ∧
    (ownedInodes (abyssfsInit m)).card = 0 ∧ (spareInodes (abyssfsInit m)).card = 510 := by
  have hmap : (abyssfsInit m).blockBitmap = 0x3FF#64 := by
    simp only [abyssfsInit]
    decide
  have hnode : ∀ n, n ≠ 1 → (abyssfsInit m).inodes n = Inode.zero := fun n hn => if_neg hn
  have hbits : (freeBits (abyssfsInit m)).card = 54 := by
    rw [freeBits, hmap]
    decide
  refine ⟨?_, hbits, ?_, ?_⟩
  · rw [Counted, hbits]
    rfl
  · rw [Finset.card_eq_zero, ownedInodes, Finset.filter_eq_empty_iff]
    rintro n - ⟨hn, -, hblocks⟩
    rw [hnode n hn] at hblocks
    exact hblocks rfl
  · have hall : spareInodes (abyssfsInit m) = Finset.Ico 2 maxInodes := by
      refine Finset.filter_true_of_mem fun n hn => ?_
      have hle := (Finset.mem_Ico.1 hn).1
      rw [hnode n (by omega)]
      rfl
    rw [hall, Nat.card_Ico]
    rfl

/-! ## Whose is what -/

/-- The blocks of the owning inodes. -/
def ownedBlocks (fs : AbyssFs) : Finset Nat := (ownedInodes fs).image fun n => (fs.inodes n).blocks

/-- The inodes that entries of the root refer to. -/
def enteredInodes (fs : AbyssFs) : Finset Nat := ((rootEntries fs).map Dirent.inode).toFinset

/-- The blocks behind the root's that are neither free nor owned. -/
def lostBlocks (fs : AbyssFs) : Finset Nat :=
  Finset.Ioo rootBlock totalBlocks \ (freeBits fs ∪ ownedBlocks fs)

/-- The inodes behind the root's that are not spare, and no entry refers to them. -/
def strayInodes (fs : AbyssFs) : Finset Nat :=
  Finset.Ico 2 maxInodes \ (spareInodes fs ∪ enteredInodes fs)

/-- **No account shares anything with another**: a block has one owner at most and is not free then,
and an inode has one entry at most and is not spare then. -/
structure Separate (fs : AbyssFs) : Prop where
  blocks : Set.InjOn (fun n => (fs.inodes n).blocks) (ownedInodes fs)
  taken : ∀ b ∈ ownedBlocks fs, rootBlock < b ∧ b < totalBlocks ∧ b ∉ freeBits fs
  inodes : ((rootEntries fs).map Dirent.inode).Nodup
  entered : ∀ n ∈ enteredInodes fs, 2 ≤ n ∧ n < maxInodes ∧ n ∉ spareInodes fs

theorem RootInv.separate {fs : AbyssFs} {rs : List DirRecord} (h : RootInv fs rs) :
    Separate fs where
  blocks := by
    intro n hn k hk heq
    obtain ⟨-, -, hlive, hblocks⟩ := Finset.mem_filter.1 (Finset.mem_coe.1 hn)
    obtain ⟨-, -, hlive', -⟩ := Finset.mem_filter.1 (Finset.mem_coe.1 hk)
    by_contra hne
    exact h.own.exclusive n k hne hlive hlive' hblocks heq
  taken := by
    intro b hb
    obtain ⟨n, hn, rfl⟩ := Finset.mem_image.1 hb
    obtain ⟨-, hne, hlive, hblocks⟩ := Finset.mem_filter.1 hn
    obtain ⟨hlow, hlt⟩ := (h.own.range n hne).resolve_left hblocks
    refine ⟨hlow, hlt, fun hfree => ?_⟩
    have hclear := (Finset.mem_filter.1 hfree).2
    rw [h.own.owned n hlive hblocks] at hclear
    cases hclear
  inodes := by
    rw [h.rootEntries_eq, List.map_map]
    exact h.nodup
  entered := by
    intro n hn
    rw [enteredInodes, h.rootEntries_eq, List.map_map, List.mem_toFinset] at hn
    obtain ⟨r, hr, rfl⟩ := List.mem_map.1 hn
    obtain ⟨h2, hlt, hmode⟩ := h.live r hr
    exact ⟨h2, hlt, fun hspare => hmode (Finset.mem_filter.1 hspare).2⟩

/-- With separate accounts, the blocks that are lost are what is missing from the sum. -/
theorem Separate.card_lostBlocks {fs : AbyssFs} (h : Separate fs) (hown : Ownership fs) :
    (freeBits fs).card + (ownedInodes fs).card + (lostBlocks fs).card = 54 := by
  have hdisj : Disjoint (freeBits fs) (ownedBlocks fs) :=
    Finset.disjoint_right.2 fun b hb => (h.taken b hb).2.2
  have hfree : freeBits fs ⊆ Finset.Ioo rootBlock totalBlocks := by
    intro b hb
    obtain ⟨hlt, hclear⟩ := Finset.mem_filter.1 hb
    refine Finset.mem_Ioo.2 ⟨?_, Finset.mem_range.1 hlt⟩
    by_contra hle
    rw [hown.reserved b (Nat.not_lt.1 hle)] at hclear
    cases hclear
  have howned : ownedBlocks fs ⊆ Finset.Ioo rootBlock totalBlocks := fun b hb =>
    Finset.mem_Ioo.2 ⟨(h.taken b hb).1, (h.taken b hb).2.1⟩
  have hall := Finset.card_sdiff_add_card_eq_card (Finset.union_subset hfree howned)
  have hsame : (ownedBlocks fs).card = (ownedInodes fs).card := Finset.card_image_of_injOn h.blocks
  have hcard : (Finset.Ioo rootBlock totalBlocks).card = 54 := by decide
  rw [Finset.card_union_of_disjoint hdisj, hsame, hcard] at hall
  rw [lostBlocks]
  omega

/-- And the inodes that are wasted. -/
theorem Separate.card_strayInodes {fs : AbyssFs} (h : Separate fs) :
    (spareInodes fs).card + (rootEntries fs).length + (strayInodes fs).card = 510 := by
  have hdisj : Disjoint (spareInodes fs) (enteredInodes fs) :=
    Finset.disjoint_right.2 fun n hn => (h.entered n hn).2.2
  have hspare : spareInodes fs ⊆ Finset.Ico 2 maxInodes := Finset.filter_subset _ _
  have hentered : enteredInodes fs ⊆ Finset.Ico 2 maxInodes := fun n hn =>
    Finset.mem_Ico.2 ⟨(h.entered n hn).1, (h.entered n hn).2.1⟩
  have hall := Finset.card_sdiff_add_card_eq_card (Finset.union_subset hspare hentered)
  have hlen : (enteredInodes fs).card = (rootEntries fs).length := by
    rw [enteredInodes, List.toFinset_card_of_nodup h.inodes, List.length_map]
  have hcard : (Finset.Ico 2 maxInodes).card = 510 := Nat.card_Ico _ _
  rw [Finset.card_union_of_disjoint hdisj, hlen, hcard] at hall
  rw [strayInodes]
  omega

/-- **The books of AbyssFS**, after any calls.  `free_blocks` is one more than there are free
blocks.  Of the 54 blocks behind the root's each is free, or one inode in use has it, or a write
has taken it for an inode that was not in use; and of the 510 inodes behind the root's each is
spare, or there is one entry for it, or an `abyssfs_mkdir` without a block has kept it.  So what
is lost or wasted is so for good. -/
theorem ledger {heap : Heap} {m : ByteMem} {tr : List AbyssCall} {t : AbyssState}
    (h : abyssLts.Run (AbyssState.init heap m) tr t) :
    t.fs.freeBlocks = (freeBits t.fs).card + 1 ∧ Separate t.fs ∧
    (freeBits t.fs).card + (ownedInodes t.fs).card +
      AbyssCall.total AbyssCall.lost (AbyssState.init heap m) tr = 54 ∧
    (lostBlocks t.fs).card = AbyssCall.total AbyssCall.lost (AbyssState.init heap m) tr ∧
    (spareInodes t.fs).card + (rootEntries t.fs).length +
      AbyssCall.total AbyssCall.wasted (AbyssState.init heap m) tr = 510 ∧
    (strayInodes t.fs).card = AbyssCall.total AbyssCall.wasted (AbyssState.init heap m) tr := by
  obtain ⟨hcount, hbits, howned, hspare⟩ := books_init m
  obtain ⟨rs, hinv, hbal⟩ := balance_run (rootInv_init m) (handlesOk_init heap m) hcount h
  have hblocks := hbal.blocks
  have hinodes := hbal.inodes
  have hfs : (AbyssState.init heap m).fs = abyssfsInit m := rfl
  have hentries : (rootEntries t.fs).length = rs.length := by
    rw [hinv.rootEntries_eq, List.length_map]
  rw [hfs, hbits, howned] at hblocks
  rw [hfs, hspare, ← hentries, List.length_nil, Nat.add_zero] at hinodes
  have hlost := hinv.separate.card_lostBlocks hinv.own
  have hstray := hinv.separate.card_strayInodes
  exact ⟨hbal.counted, hinv.separate, hblocks, by omega, hinodes, by omega⟩

/-- The only entry of the root is removed, of a file that has no block: its inode is spare, and no
block is given back. -/
theorem unlink_only {fs : AbyssFs} {n : EntryName} {i : Nat} (hi : i < maxInodes)
    (h : RootInv fs [n.record i hi]) {mode : BitVec 32}
    (hnode : fs.inodes i = { mode := mode, size := 0, blocks := 0 }) :
    (abyssfsUnlink fs n.bytes).2.inodes i = { mode := 0, size := 0, blocks := 0 } ∧
      (abyssfsUnlink fs n.bytes).2.blockBitmap = fs.blockBitmap := by
  have hdir : RootDir fs.blocks ([] ++ n.record i hi :: []) := h.dir
  have hcall := hdir.unlink_some n.dropWhile_slash n.ne_dots (by simp)
  have hinode : (n.record i hi).inode = i := rfl
  have hrelease : releaseInode fs i = fs.setInode i { fs.inodes i with mode := 0 } := by
    rw [releaseInode, getInode_of_lt hi]
    simp only [hnode]
    rfl
  rw [hinode, hrelease] at hcall
  rw [hcall]
  exact ⟨by simp only [setInode_self, hnode], rfl⟩

/-- A file is created and removed, and a byte written through its handle: the block that it takes is
lost. -/
theorem ledger_write : ∃ t, abyssLts.Run (AbyssState.init (Heap.mk 0) fun _ => 0)
    [.create nameA, .unlink nameA, .write 0 (str ['x'])] t ∧ (lostBlocks t.fs).card = 1 ∧
      (freeBits t.fs).card + (ownedInodes t.fs).card = 53 := by
  obtain ⟨s, hs⟩ : ∃ s, s = AbyssState.init (Heap.mk 0) fun _ => 0 := ⟨_, rfl⟩
  obtain ⟨s₁, hs₁⟩ : ∃ s₁, s₁ = (AbyssCall.create nameA).apply s := ⟨_, rfl⟩
  obtain ⟨s₂, hs₂⟩ : ∃ s₂, s₂ = (AbyssCall.unlink nameA).apply s₁ := ⟨_, rfl⟩
  have hfits : (AbyssCall.create nameA).Fits (rootEntries s.fs) := by
    have hroot : rootEntries s.fs = [] := by
      rw [hs]
      exact (rootInv_init fun _ => 0).rootEntries_eq
    rw [hroot, AbyssCall.Fits]
    decide
  have hrun : abyssLts.Run s [.create nameA, .unlink nameA, .write 0 (str ['x'])]
      ((AbyssCall.write 0 (str ['x'])).apply s₂) :=
    Lts.run_cons_iff.2 ⟨s₁, ⟨hfits, hs₁⟩, Lts.run_cons_iff.2 ⟨s₂, ⟨trivial, hs₂⟩,
      Lts.run_cons_iff.2 ⟨_, ⟨trivial, rfl⟩, Lts.run_nil_iff.2 rfl⟩⟩⟩
  -- the handle outlives the file
  have hhandles : s₂.handles = [{ fOps := .abyssfs, privateData := 2, fPos := 0 }] := by
    have hcreated : (abyssfsCreate s.heap s.fs [slash] nameA.bytes).1 =
        some { fOps := .abyssfs, privateData := 2, fPos := 0 } := by
      have hheap : s.heap = Heap.mk 0 := by rw [hs]; rfl
      have hfs : s.fs = abyssfsInit fun _ => 0 := by rw [hs]; rfl
      rw [hheap, hfs]
      exact abyssfsCreate_init
    have hnil : s.handles = [] := by rw [hs]; rfl
    have hunlinked : s₂.handles = s₁.handles := by rw [hs₂, AbyssCall.apply]
    rw [hunlinked, hs₁, AbyssCall.apply, hcreated, hnil]
    rfl
  have hwrite : AbyssCall.lost s₂ (.write 0 (str ['x'])) = 1 := by
    have hfs₁ : s₁.fs = (abyssfsCreate (Heap.mk 0) (abyssfsInit fun _ => 0) [slash]
        nameA.bytes).2.2 := by
      rw [hs₁, hs, AbyssCall.apply_create]
      simp only [AbyssState.init]
    obtain ⟨hi, hinv⟩ := rootInv_create_init
    obtain ⟨-, -, hcreated⟩ := abyssfsCreate_fresh abyssfsCreate_init
    have hbitmap := abyssfsCreate_bitmap (Heap.mk 0) (abyssfsInit fun _ => 0) [slash] nameA.bytes
    rw [← hfs₁] at hinv hcreated hbitmap
    have hunlink := unlink_only hi hinv hcreated
    have hfs₂ : s₂.fs = (abyssfsUnlink s₁.fs nameA.bytes).2 := by rw [hs₂, AbyssCall.apply]
    rw [← hfs₂] at hunlink
    obtain ⟨hnode, hkept⟩ := hunlink
    have hblock : (allocBlock s₂.fs).1 ≠ 0 := by
      rw [allocBlock_congr (hkept.trans hbitmap)]
      decide
    have hdead : ¬ Live s₂.fs 2 := by
      rintro (hmode | hzero)
      · rw [hnode] at hmode
        exact hmode rfl
      · exact absurd hzero (by decide)
    have hnone : (s₂.fs.inodes 2).blocks = 0 := by rw [hnode]
    simp only [AbyssCall.lost, hhandles, List.getElem?_cons_zero]
    exact if_pos ⟨by decide, hdead, hnone, hblock⟩
  have hlost : AbyssCall.total AbyssCall.lost s
      [.create nameA, .unlink nameA, .write 0 (str ['x'])] = 1 := by
    rw [AbyssCall.total, AbyssCall.total, AbyssCall.total, AbyssCall.total, ← hs₁, ← hs₂, hwrite]
    rfl
  refine ⟨_, by rw [← hs]; exact hrun, ?_⟩
  generalize (AbyssCall.write 0 (str ['x'])).apply s₂ = t at hrun ⊢
  rw [hs] at hrun
  obtain ⟨-, -, hbooks, hcard, -⟩ := ledger hrun
  rw [← hs, hlost] at hbooks hcard
  exact ⟨hcard, by omega⟩

end OsArm
