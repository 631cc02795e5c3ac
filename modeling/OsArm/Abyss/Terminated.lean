import OsArm.Abyss.Accesses
import OsArm.Abyss.Failures

/-!
# Directory blocks that end

* `Terminated` — a block holds records and then a length 0, inside the block.
* `Terminated.create`, `Terminated.remove` — `create_file` keeps it so when there is room for the
  new record and what is read behind it, `abyssfs_unlink` always; and what they read and write
  is inside the block.
* `Sound` — all blocks that a directory can have are such blocks; `Sound.createFile`,
  `Sound.mkdirState`, `Sound.unlink` keep it, and all lookups stay inside.
-/

namespace OsArm

open RecordFormat (chain_append)

/-! ## Terminated blocks -/

/-- The length that the next record goes behind, with the last record shrunk. -/
def usedBy (rs : List DirRecord) : Nat := (rs.map fun r => recSize r.name.length).sum

/-- **The block at `a` holds the records `rs`** and then a length 0, inside the block.  All
records but the last are as long as their names need. -/
structure Terminated (m : ByteMem) (a : Nat) (rs : List DirRecord) : Prop where
  chain : dirFormat.Chain m a rs
  stop : recLen m (a + dirFormat.span rs) = 0
  short : ∀ r ∈ rs, r.name.length ≤ 245
  exact : ∀ r ∈ rs.dropLast, r.Exact
  fits : dirFormat.span rs + 6 ≤ blockSize

/-- The same by the listing of the block. -/
def usedBytes (m : ByteMem) (a : Nat) : Nat :=
  ((readEntries m blockSize a).map fun e => recSize e.name.length).sum

/-! ## What the operations do to a terminated block -/

namespace Terminated

variable {m m' : ByteMem} {a : Nat} {rs us ts : List DirRecord} {r : DirRecord}

/-- The property is about the bytes of the block only. -/
theorem frame (h : Terminated m a rs) (hm : ∀ x, a ≤ x → x < a + blockSize → m' x = m x) :
    Terminated m' a rs := by
  have hfits := h.fits
  refine ⟨h.chain.frame fun x hx hx' => hm x hx (by omega), ?_, h.short, h.exact, h.fits⟩
  rw [recLen, hm _ (by omega) (by omega)]
  exact h.stop

/-- A zero length at its start: no records. -/
theorem empty (h : recLen m a = 0) : Terminated m a [] where
  chain := trivial
  stop := h
  short := by simp
  exact := by simp
  fits := by decide

/-- The invariant of a directory block says so. -/
theorem of_dirBlock {ino : Nat} (h : DirBlock m a ino rs) : ∃ qs, Terminated m a qs := by
  obtain ⟨fresh, hfresh, hchain, hstop⟩ := h.chain
  have hlen := h.span_lt hfresh
  have hname : (selfDot ino h.ino_lt).name.length = 1 := rfl
  have hself : (selfDot ino h.ino_lt).Exact := ⟨by omega, by rw [hname]; rfl⟩
  refine ⟨_, hchain, hstop, fun q hq => ?_, fun q hq => ?_, by omega⟩
  · obtain ⟨p, hp, hname⟩ := DirBlock.exists_of_mem hq
    rw [← hname]
    rcases List.mem_cons.1 hp with rfl | hp
    · exact hself.1
    · rcases List.mem_cons.1 hp with rfl | hp
      · decide
      · exact (h.exact p hp).1
  · cases fresh with
    | true =>
      obtain rfl := hfresh rfl
      rw [List.mem_singleton.1 hq]
      exact hself
    | false =>
      rcases List.mem_cons.1 (List.dropLast_subset _ hq) with rfl | hq
      · exact hself
      · rcases List.mem_cons.1 hq with rfl | hq
        · exact ⟨by decide, by decide⟩
        · exact h.exact q hq

/-- Records that are as long as their names need take up what is used. -/
theorem span_of_exact (h : ∀ r ∈ us, r.Exact) : dirFormat.span us = usedBy us := by
  rw [RecordFormat.span, usedBy]
  exact congrArg List.sum (List.map_congr_left fun r hr => (h r hr).2)

/-- **`create_file`** keeps a block terminated when there is room for the new record and the
length behind it, and, in a block without records, that length is 0. -/
theorem create (h : Terminated m a rs) (hbig : a + blockSize < 2 ^ 64) {name : Str} {inode : Nat}
    (hn : NulFree name) (hl : name.length ≤ 245) (hi : inode < 2 ^ 32)
    (hroom : usedBy rs + recSize name.length + 6 ≤ blockSize)
    (hclear : rs = [] → recLen m (a + recSize name.length) = 0) :
    (∃ rs', Terminated (storeEntry m a inode name) a rs') ∧
      (∀ x, x < a ∨ a + blockSize ≤ x → storeEntry m a inode name x = m x) ∧
      ∀ c ∈ storeAccesses m a name, c.Inside := by
  have hsize := le_recSize name.length
  have hmod : name.length % 256 = name.length := Nat.mod_eq_of_lt (by omega)
  have hfits := h.fits
  have hwalk : ∀ c ∈ lastAccesses m a (a + blockSize) blockSize a, c.Inside :=
    lastAccesses_inside h.chain h.stop (Nat.le_refl a) (by omega)
  unfold dirEntryFixedSize at hsize
  have hentry : ∀ entry, a ≤ entry → entry + recSize name.length ≤ a + blockSize →
      ∀ c ∈ entryAccesses a entry name, c.Inside := by
    intro entry hlow hhigh
    refine List.forall_mem_cons.2 ⟨Access.inside hlow ?_, List.forall_mem_cons.2
      ⟨Access.inside ?_ ?_, by simp⟩⟩
    · simp only [dirEntryFixedSize]
      omega
    · simp only [nameAddr]
      omega
    · simp only [nameAddr, dirEntryFixedSize, hmod]
      omega
  rcases List.eq_nil_or_concat rs with rfl | ⟨us, last, hcut⟩
  · -- no record: the new one is written at the start of the block, and nothing is cleared
    have hlast : (lastEntry m (a + blockSize) blockSize a none).2 = none := by
      have hstop := h.stop
      rw [RecordFormat.span_nil, Nat.add_zero] at hstop
      rw [show blockSize = 4095 + 1 from rfl, lastEntry, if_neg (by omega)]
    have hstore : storeEntry m a inode name = writeEntry m a inode name := by
      rw [storeEntry, hlast]
    have hused : usedBy [] = 0 := rfl
    have hspan : dirFormat.span [entryRecord name inode hn hl hi] = recSize name.length :=
      Nat.add_zero _
    rw [hstore]
    refine ⟨⟨[entryRecord name inode hn hl hi], ⟨writeEntry_stored hn hl hi, trivial⟩, ?_, ?_,
      by simp, ?_⟩, ?_, ?_⟩
    · rw [hspan, recLen, writeEntry_outside hl (by omega)]
      exact hclear rfl
    · exact List.forall_mem_cons.2 ⟨hl, by simp⟩
    · omega
    · exact fun x hx => writeEntry_outside hl (by omega)
    · rw [storeAccesses, hlast]
      exact List.forall_mem_append.2 ⟨hwalk, hentry a (Nat.le_refl a) (by omega)⟩
  · -- the last record is shrunk, the block behind it is cleared, and the new one goes there
    rw [List.concat_eq_append] at hcut
    subst hcut
    have hlen := h.short last (by simp)
    obtain ⟨last', hname, hinode, hlast'⟩ : ∃ last' : DirRecord, last'.name = last.name ∧
        last'.inode = last.inode ∧ last'.size = recSize last.name.length :=
      ⟨{ last with size := _, name_fits := le_recSize _, size_lt := recSize_lt hlen }, rfl, rfl,
        rfl⟩
    have hexact : last'.Exact := ⟨by rwa [hname], by rw [hlast', hname]⟩
    have husExact : ∀ q ∈ us, q.Exact := fun q hq => h.exact q (by rwa [List.dropLast_concat])
    have hspan := span_of_exact husExact
    have hused : usedBy (us ++ [last]) = usedBy us + recSize last.name.length := by
      simp [usedBy]
    have hcount := dirFormat.length_le_span us
    have hpos := last.size_pos
    have hcut : dirFormat.span (us ++ [last]) = dirFormat.span us + last.size := by simp
    have hprev : (lastEntry m (a + blockSize) blockSize a none).2 =
        some (a + dirFormat.span us) := lastEntry_chain h.chain h.stop (by omega) (by omega)
    have hmin : minRecLen (nameLen m (a + dirFormat.span us)) = last'.size := by
      rw [(chain_append.1 h.chain).2.1.2.1, minRecLen_eq hlen, hlast']
    have hstore : storeEntry m a inode name = writeEntry
        (shrinkEntry m (a + dirFormat.span us) (a + blockSize))
        (a + dirFormat.span us + minRecLen (nameLen m (a + dirFormat.span us))) inode name := by
      rw [storeEntry, hprev]
    obtain ⟨hchain, hstop, hout⟩ := chain_append_entry h.chain hname hinode hexact hn hl hi
      (by omega) hbig rfl hstore
    have hspan' : dirFormat.span (us ++ [last', entryRecord name inode hn hl hi]) =
        dirFormat.span us + last'.size + recSize name.length := by
      simp [entryRecord, Nat.add_assoc]
    refine ⟨⟨_, hchain, ?_, ?_, ?_, ?_⟩, hout, ?_⟩
    · rw [hspan', ← Nat.add_assoc, ← Nat.add_assoc]
      exact hstop
    · refine List.forall_mem_append.2 ⟨fun q hq => (husExact q hq).1, ?_⟩
      exact List.forall_mem_cons.2 ⟨hexact.1, List.forall_mem_cons.2 ⟨hl, by simp⟩⟩
    · rw [List.dropLast_append_cons]
      refine List.forall_mem_append.2 ⟨husExact, ?_⟩
      exact List.forall_mem_cons.2 ⟨hexact, by simp⟩
    · omega
    · rw [storeAccesses, hprev]
      simp only [hmin]
      refine List.forall_mem_append.2 ⟨hwalk, List.forall_mem_append.2 ⟨?_, ?_⟩⟩
      · refine List.forall_mem_cons.2 ⟨Access.inside ?_ ?_, List.forall_mem_cons.2
          ⟨Access.inside ?_ ?_, by simp⟩⟩ <;> simp only <;> omega
      · exact hentry _ (by omega) (by omega)

/-- **`abyssfs_unlink`** keeps a block terminated. -/
theorem remove (h : Terminated m a (us ++ r :: ts)) {dir : Nat}
    (hdir : dir = a + dirFormat.span us) :
    (∃ rs', Terminated (removeEntry m a dir) a rs') ∧
      (∀ x, x < a ∨ a + blockSize ≤ x → removeEntry m a dir x = m x) ∧
      ∀ c ∈ removeAccesses m a dir, c.Inside := by
  have hfits := h.fits
  obtain ⟨hchain, hstop, hout⟩ := removeEntry_spec h.chain h.stop hfits hdir
  have hrec : recLen m dir = r.size := by
    rw [hdir]
    exact h.chain.stored.2.2.1
  have hpos := r.size_pos
  have hmin := r.name_fits
  unfold dirEntryFixedSize at hmin
  rw [RecordFormat.span_append, RecordFormat.span_cons, dirFormat_len] at hfits
  refine ⟨⟨_, hchain, hstop, fun q hq => h.short q ?_, fun q hq => h.exact q ?_, ?_⟩, hout, ?_⟩
  · exact (List.mem_append.1 hq).elim (List.mem_append_left _)
      fun hq => List.mem_append_right _ (List.mem_cons_of_mem _ hq)
  · rw [List.dropLast_append_cons]
    rw [List.dropLast_append] at hq
    split at hq
    · next hts =>
      rw [List.isEmpty_iff.1 hts]
      exact List.mem_append_left _ (List.dropLast_subset _ hq)
    · next hts =>
      have hcons : (r :: ts).dropLast = r :: ts.dropLast :=
        List.dropLast_cons_of_ne_nil fun hnil => hts (by rw [hnil]; rfl)
      rw [hcons]
      exact (List.mem_append.1 hq).elim (List.mem_append_left _)
        fun hq => List.mem_append_right _ (List.mem_cons_of_mem _ hq)
  · rw [RecordFormat.span_append]
    omega
  · have hcount : (2 ^ 64 + blockSize - (dir + r.size - a)) % 2 ^ 64 =
        blockSize - (dirFormat.span us + r.size) := by
      rw [blockSize] at hfits ⊢
      omega
    simp only [removeAccesses, hrec, hcount]
    refine List.forall_mem_append.2
      ⟨List.forall_mem_cons.2 ⟨recLenAccess_inside (by omega) (by omega),
      List.forall_mem_cons.2 ⟨recLenAccess_inside (by omega) (by omega), by simp⟩⟩, ?_⟩
    split
    · refine List.forall_mem_cons.2 ⟨Access.inside ?_ ?_, List.forall_mem_cons.2
        ⟨Access.inside ?_ ?_, by simp⟩⟩ <;> simp only <;> omega
    · refine List.forall_mem_cons.2 ⟨Access.inside ?_ ?_, by simp⟩ <;> simp only <;> omega

/-- What is used shows in the listing. -/
theorem usedBytes_eq (h : Terminated m a rs) : usedBytes m a = usedBy rs := by
  have hcount := dirFormat.length_le_span rs
  have hfits := h.fits
  rw [usedBytes, readEntries_chain h.chain h.stop, List.take_of_length_le (by simp; omega),
    List.map_map]
  rfl

/-- A block without records starts with a zero length. -/
theorem recLen_eq_zero (h : Terminated m a []) : recLen m a = 0 := h.stop

end Terminated

/-! ## All blocks that a directory can have -/

/-- What an inode can have for its block: none, or a data block. -/
def InodeBlock (b : Nat) : Prop := b = 0 ∨ firstDataBlock ≤ b ∧ b < totalBlocks

/-- **The invariant**: whatever block a walk starts in, it is terminated. -/
structure Sound (fs : AbyssFs) : Prop where
  inodes : ∀ n, InodeBlock (fs.inodes n).blocks
  blocks : ∀ b, InodeBlock b → ∃ rs, Terminated fs.blocks (b * blockSize) rs

/-- `get_block` of such a block. -/
theorem InodeBlock.getBlock_eq {b : Nat} (h : InodeBlock b) :
    getBlock b = some (b * blockSize) := by
  refine if_neg ?_
  rcases h with rfl | h
  · decide
  · omega

theorem inodeBlock_root : InodeBlock rootBlock := Or.inr ⟨by decide, by decide⟩

/-- An entry whose name has `len` bytes goes into the block, and so does the length that is read
behind it; in a block without records that length is 0 already. -/
def LeavesStop (fs : AbyssFs) (len : Nat) : Prop :=
  usedBytes fs.blocks (dirAddr fs) + recSize len + 6 ≤ blockSize ∧
    (recLen fs.blocks (dirAddr fs) = 0 → recLen fs.blocks (dirAddr fs + recSize len) = 0)

namespace Sound

variable {fs fs' : AbyssFs}

/-- A change in one block. -/
theorem update (h : Sound fs) {b : Nat} (hb : ∃ rs, Terminated fs'.blocks (b * blockSize) rs)
    (hout : ∀ x, x < b * blockSize ∨ b * blockSize + blockSize ≤ x → fs'.blocks x = fs.blocks x)
    (hinodes : ∀ n, InodeBlock (fs'.inodes n).blocks) : Sound fs' where
  inodes := hinodes
  blocks := by
    intro k hk
    by_cases hkb : k = b
    · rw [hkb]
      exact hb
    · obtain ⟨rs, hrs⟩ := h.blocks k hk
      refine ⟨rs, hrs.frame fun x hlow hhigh => hout x ?_⟩
      rw [blockSize] at hlow hhigh ⊢
      omega

/-- A change of the inode table only. -/
theorem frame (h : Sound fs) (hblocks : fs'.blocks = fs.blocks)
    (hinodes : ∀ n, InodeBlock (fs'.inodes n).blocks) : Sound fs' where
  inodes := hinodes
  blocks := by
    rw [hblocks]
    exact h.blocks

theorem setInode (h : Sound fs) (n : Nat) {node : Inode} (hnode : InodeBlock node.blocks) :
    Sound (fs.setInode n node) := by
  refine h.frame rfl ?_
  intro k
  by_cases hk : k = n
  · rw [hk, setInode_self]
    exact hnode
  · rw [setInode_of_ne hk]
    exact h.inodes k

/-- After `abyssfs_init`. -/
theorem init (m : ByteMem) : Sound (abyssfsInit m) where
  inodes := by
    intro n
    by_cases hn : n = 1
    · subst hn
      exact inodeBlock_root
    · have hnode : (abyssfsInit m).inodes n = Inode.zero := if_neg hn
      rw [hnode]
      exact Or.inl rfl
  blocks := by
    intro b hb
    by_cases hroot : b = rootBlock
    · rw [hroot]
      exact Terminated.of_dirBlock (rootDir_init m).block
    · have hlt : b < totalBlocks := by
        rcases hb with rfl | hb
        · decide
        · exact hb.2
      have hle : b * blockSize + blockSize ≤ blockSize * totalBlocks := by
        rw [Nat.mul_comm blockSize, ← Nat.succ_mul]
        exact Nat.mul_le_mul_right _ hlt
      refine ⟨[], Terminated.empty ?_⟩
      have hout : (abyssfsInit m).blocks (b * blockSize + 5) =
          memset m 0 0 (blockSize * totalBlocks) (b * blockSize + 5) := by
        refine putDots_outside ?_
        rw [blockSize]
        omega
      rw [recLen, hout, memset_eq,
        ByteMem.blit_inside (Nat.zero_le _) (by rw [blockSize] at hle ⊢; omega)]
      rfl

theorem allocInode (h : Sound fs) : Sound (OsArm.allocInode fs).2 := by
  rcases allocInode_spec fs with hnone | ⟨i, hi, -⟩
  · rw [hnone]
    exact h
  · rw [hi]
    exact h.setInode i (Or.inl rfl)

/-- The block `create_file` works in. -/
theorem dirBlock (h : Sound fs) : ∃ b rs, dirAddr fs = b * blockSize ∧ InodeBlock b ∧
    Terminated fs.blocks (dirAddr fs) rs := by
  by_cases hzero : (fs.inodes 1).blocks = 0
  · obtain ⟨rs, hrs⟩ := h.blocks rootBlock inodeBlock_root
    exact ⟨rootBlock, rs, by rw [dirAddr, if_pos hzero], inodeBlock_root,
      by rw [dirAddr, if_pos hzero]; exact hrs⟩
  · obtain ⟨rs, hrs⟩ := h.blocks _ (h.inodes 1)
    exact ⟨_, rs, by rw [dirAddr, if_neg hzero], h.inodes 1,
      by rw [dirAddr, if_neg hzero]; exact hrs⟩

/-! ### The operations -/

/-- **`create_file`** for a process in `"/"`. -/
theorem createFile (h : Sound fs) {name : Str} {i : Nat} (hn : NulFree (basename name))
    (hl : (basename name).length ≤ 245) (hi : i < 2 ^ 32)
    (hstops : LeavesStop fs (basename name).length) :
    Sound (OsArm.createFile fs [slash] name i).2 ∧
      ∀ c ∈ createFileAccesses fs [slash] name, c.Inside := by
  obtain ⟨b, rs, haddr, hb, hrs⟩ := h.dirBlock
  obtain ⟨hroom, hclear⟩ := hstops
  have hlt : b < totalBlocks := by
    rcases hb with rfl | hb
    · decide
    · exact hb.2
  have hbig : dirAddr fs + blockSize < 2 ^ 64 := by
    rw [haddr, blockSize]
    rw [totalBlocks] at hlt
    omega
  rw [hrs.usedBytes_eq] at hroom
  obtain ⟨hstored, hout, hinside⟩ := hrs.create hbig hn hl hi hroom fun hnil =>
    hclear (by subst hnil; exact hrs.recLen_eq_zero)
  rw [createFile_slash, createFileAccesses_slash]
  rw [haddr] at hstored hout hinside ⊢
  exact ⟨h.update hstored hout h.inodes, hinside⟩

/-- What `releaseInode` does to the blocks of inodes. -/
theorem releaseInode_inodes (fs : AbyssFs) (n k : Nat) :
    ((releaseInode fs n).inodes k).blocks = (fs.inodes k).blocks := by
  by_cases hk : k = n
  · subst hk
    have hself : ((fs.setInode k { fs.inodes k with mode := 0 }).inodes k).blocks =
        (fs.inodes k).blocks := by rw [setInode_self]
    unfold releaseInode getInode freeBlock
    by_cases hmax : k ≥ maxInodes
    · rw [if_pos hmax]
    · rw [if_neg hmax]
      dsimp only
      split
      · split <;> exact hself
      · exact hself
  · rw [releaseInode_frame.2 hk]

/-- **`abyssfs_unlink`**, whatever its path. -/
theorem unlink (h : Sound fs) (path : Str) :
    Sound (abyssfsUnlink fs path).2 ∧ ∀ c ∈ unlinkAccesses fs path, c.Inside := by
  obtain ⟨rs, hrs⟩ := h.blocks rootBlock inodeBlock_root
  have hfits := hrs.fits
  have hfind : ∀ c ∈ findAccesses fs.blocks (rootBlock * blockSize) (path.dropWhile (· = slash))
      walkFuel (rootBlock * blockSize), c.Inside :=
    findAccesses_inside hrs.chain hrs.stop (Nat.le_refl _) (by omega)
  unfold abyssfsUnlink unlinkAccesses
  cases hdir : findEntry fs.blocks (path.dropWhile (· = slash)) walkFuel
    (rootBlock * blockSize) with
  | none =>
    simp only [hdir]
    exact ⟨h, List.forall_mem_append.2 ⟨hfind, by simp⟩⟩
  | some dir =>
    obtain ⟨us, r, ts, rfl, hcut⟩ := findEntry_cut hrs.chain hrs.stop hdir
    obtain ⟨hstored, hout, hinside⟩ := hrs.remove hcut
    simp only [hdir]
    have hblocks : (releaseInode fs (fs.blocks.word dir)).blocks = fs.blocks :=
      (releaseInode_frame (k := 0)).1
    rw [hblocks]
    refine ⟨h.update hstored hout fun n => ?_, List.forall_mem_append.2 ⟨hfind, hinside⟩⟩
    simp only
    rw [releaseInode_inodes]
    exact h.inodes n

/-- A new directory. -/
theorem initDir (h : Sound fs) {i b : Nat} (hi : i < 2 ^ 32) (hb : InodeBlock b)
    (hclean : recLen fs.blocks (b * blockSize + 256) = 0) : Sound (OsArm.initDir fs i b) := by
  obtain ⟨node, hnode⟩ : ∃ node : Inode,
      node = { mode := (fs.inodes i).mode ||| 0x4000, size := blockSize, blocks := b } :=
    ⟨_, rfl⟩
  have hset : Sound (fs.setInode i node) := h.setInode i (by rw [hnode]; exact hb)
  have hcall : OsArm.initDir fs i b =
      { fs.setInode i node with blocks := putDots fs.blocks (b * blockSize) i } := by
    rw [hnode]
    rfl
  have hdots : 20 ≤ blockSize := by decide
  rw [hcall]
  refine hset.update (b := b) (Terminated.of_dirBlock (dirBlock_putDots hi hclean)) ?_ hset.inodes
  exact fun x hx => putDots_outside (by omega)

/-- The state in which `abyssfs_mkdir` calls `create_file`. -/
theorem mkdirState (h : Sound fs) (hb : (allocBlock (OsArm.allocInode fs).2).1 ≠ 0)
    (hclean : recLen fs.blocks ((allocBlock (OsArm.allocInode fs).2).1 * blockSize + 256) = 0) :
    Sound (OsArm.mkdirState fs) := by
  have hblocks : (OsArm.allocInode fs).2.blocks = fs.blocks := by
    rcases allocInode_spec fs with hnone | ⟨i, hi, -⟩
    · rw [hnone]
    · rw [hi]
      rfl
  have hblock : InodeBlock (allocBlock (OsArm.allocInode fs).2).1 := by
    rcases allocBlock_spec (OsArm.allocInode fs).2 with hnone | ⟨b, hb', hlow, hhigh, -⟩
    · rw [hnone] at hb
      exact absurd rfl hb
    · rw [hb']
      exact Or.inr ⟨hlow, hhigh⟩
  have h' := h.allocInode
  obtain ⟨hframe, hinodes⟩ := allocBlock_frame (OsArm.allocInode fs).2
  have h'' : Sound (allocBlock (OsArm.allocInode fs).2).2 :=
    h'.frame hframe fun n => by rw [hinodes]; exact h'.inodes n
  exact h''.initDir (allocInode_lt fs) hblock (by rw [hframe, hblocks]; exact hclean)

/-- **`get_inode_by_path`** stays inside the directories it goes through. -/
theorem walkAccesses_inside (h : Sound fs) {fuel inode : Nat} {save : Str} :
    ∀ c ∈ walkAccesses fs fuel inode save, c.Inside := by
  induction fuel generalizing inode save with
  | zero => exact fun c hc => absurd hc List.not_mem_nil
  | succ fuel ih =>
    rw [walkAccesses]
    cases strtokR save [slash] with
    | none => simp
    | some x =>
      obtain ⟨token, rest⟩ := x
      obtain ⟨rs, hrs⟩ := h.blocks _ (h.inodes inode)
      have hfits := hrs.fits
      dsimp only
      split
      · simp
      · rw [(h.inodes inode).getBlock_eq]
        refine List.forall_mem_append.2 ⟨findAccesses_inside hrs.chain hrs.stop (Nat.le_refl _)
          (by omega), ?_⟩
        split
        · simp
        · split
          · simp
          · exact ih

theorem pathAccesses_inside (h : Sound fs) (path : Str) : ∀ c ∈ pathAccesses fs path, c.Inside := by
  unfold pathAccesses
  dsimp only
  split
  · simp
  · exact h.walkAccesses_inside

/-- **`abyssfs_read_dir`** stays inside. -/
theorem readDirAccesses_inside (h : Sound fs) (path : Str) (count : Nat) :
    ∀ c ∈ readDirAccesses fs path count, c.Inside := by
  have hread : ∀ b, InodeBlock b → ∀ c ∈ readAccesses fs.blocks (b * blockSize)
    count (b * blockSize),
      c.Inside := by
    intro b hb
    obtain ⟨rs, hrs⟩ := h.blocks b hb
    have hfits := hrs.fits
    exact readAccesses_inside hrs.chain hrs.stop (Nat.le_refl _) (by omega)
  unfold readDirAccesses
  by_cases hnil : path.dropWhile (· = slash) = []
  · simp only [if_pos hnil, Option.bind_some, inodeBlock_root.getBlock_eq]
    exact List.forall_mem_append.2 ⟨by simp, hread rootBlock inodeBlock_root⟩
  · simp only [if_neg hnil]
    refine List.forall_mem_append.2 ⟨h.pathAccesses_inside _, ?_⟩
    cases getInodeByPath fs (path.dropWhile (· = slash)) with
    | none => exact fun c hc => absurd hc List.not_mem_nil
    | some n =>
      simp only [Option.map_some, Option.bind_some, (h.inodes n).getBlock_eq]
      exact hread _ (h.inodes n)

end Sound

end OsArm
