import OsArm.Abyss.Open

/-!
# Several writes to one file of AbyssFS

`abyssfs_write` adds to the size of the inode, and `write_to_blocks` stores every buffer at
the start of the block.

* `abyssfsWrite_of_block`, `writeAll_spec` — the answers and the size after any number of
  writes are those of appending, the bytes are those of one buffer laid over the other
  (`overlay`).
* `readAll_spec` — reading in chunks delivers the bytes of the block, up to the size.
* `accumulates_iff` — so what is read is what was written if and only if the two agree;
  `not_accumulates_two` has two writes where they do not.
-/

namespace OsArm

/-! ## Writing and reading again and again -/

/-- The writes of the buffers through one handle: the answers, and the state after them. -/
def writeAll (fs : AbyssFs) (file : VfsFile) : List (List UInt8) → List Int × AbyssFs
  | [] => ([], fs)
  | buf :: bufs =>
    let r := abyssfsWrite fs file buf
    (r.1 :: (writeAll r.2 file bufs).1, (writeAll r.2 file bufs).2)

/-- The size of a buffer to read into; with a position in the file it does not leave the
address space. -/
structure ChunkSize where
  count : Nat
  lt : count + blockSize < 2 ^ 64

/-- The bytes that reads into buffers of these sizes deliver, one after the other; `none` when
one of them fails. -/
def readAll (fs : AbyssFs) : VfsFile → List ChunkSize → Option (List UInt8)
  | _, [] => some []
  | file, k :: ks =>
    match abyssfsRead fs file k.count with
    | (none, _) => none
    | (some out, file) => (readAll fs file ks).map (out ++ ·)

/-- **The writes accumulate**: each returns the length of its buffer, the size is their sum,
and reading delivers all the buffers in order. -/
structure Accumulates (fs : AbyssFs) (file : VfsFile) (bufs : List (List UInt8)) : Prop where
  answers : (writeAll fs file bufs).1 = bufs.map fun buf => (buf.length : Int)
  size : ((writeAll fs file bufs).2.inodes file.privateData).size = bufs.flatten.length
  read : ∀ ks, readAll (writeAll fs file bufs).2 file ks =
    some (bufs.flatten.take (ks.map ChunkSize.count).sum)

/-- The byte at `k` of a block that held `m`, after the buffers were all stored at its start:
that of the last buffer longer than `k`. -/
def overlay (m : Nat → UInt8) (bufs : List (List UInt8)) (k : Nat) : UInt8 :=
  match bufs.reverse.find? fun buf => k < buf.length with
  | some buf => buf.getD k 0
  | none => m k

theorem overlay_cons (m : Nat → UInt8) (buf : List UInt8) (bufs : List (List UInt8)) (k : Nat) :
    overlay m (buf :: bufs) k =
      overlay (fun k => if k < buf.length then buf.getD k 0 else m k) bufs k := by
  rw [overlay, overlay, List.reverse_cons, List.find?_append]
  cases bufs.reverse.find? fun buf => k < buf.length with
  | some last => rfl
  | none =>
    by_cases hk : k < buf.length
    · simp [hk]
    · simp [hk]

/-! ## One write -/

/-- **A write to a file with a block.** -/
theorem abyssfsWrite_of_block {fs : AbyssFs} {file : VfsFile} (buf : List UInt8) {s b : Nat}
    {mode : BitVec 32} (hn : file.privateData < maxInodes)
    (hnode : fs.inodes file.privateData = { mode := mode, size := s, blocks := b }) (hb : b ≠ 0)
    (hlen : buf.length ≤ blockSize) (hs : s + buf.length < 2 ^ 32) :
    (abyssfsWrite fs file buf).1 = buf.length ∧
      (abyssfsWrite fs file buf).2.inodes file.privateData =
        { mode := mode, size := s + buf.length, blocks := b } ∧
      ∀ k, (abyssfsWrite fs file buf).2.blocks (b * blockSize + k) =
        if k < buf.length then buf.getD k 0 else fs.blocks (b * blockSize + k) := by
  have hcall : abyssfsWrite fs file buf = ((buf.length : Int), if buf.length > 0 then
      (storeBlock fs b buf buf.length).setInode file.privateData
        { mode := mode, size := s + buf.length, blocks := b }
      else storeBlock fs b buf buf.length) := by
    have hle : ¬ buf.length > blockSize := Nat.not_lt.2 hlen
    simp only [abyssfsWrite, getInode_of_lt hn, writeToBlocks, if_neg hb, if_neg hle,
      storeBlock_inodes, hnode, Nat.mod_eq_of_lt hs]
    split <;> rfl
  have hstore : ∀ k, (storeBlock fs b buf buf.length).blocks (b * blockSize + k) =
      if k < buf.length then buf.getD k 0 else fs.blocks (b * blockSize + k) := by
    intro k
    simp only [storeBlock, memcpyTo_eq]
    split
    · next hk => exact ByteMem.blit_add hk
    · next hk => exact ByteMem.blit_outside (by omega)
  rw [hcall]
  refine ⟨rfl, ?_, ?_⟩
  · dsimp only
    split
    · exact setInode_self
    · next hzero =>
      have hnil : buf.length = 0 := Nat.eq_zero_of_not_pos hzero
      rw [storeBlock_inodes, hnode, hnil, Nat.add_zero]
  · intro k
    dsimp only
    split <;> exact hstore k

/-- The first write to a file without a block takes one; the rest is the same. -/
theorem abyssfsWrite_of_no_block {fs : AbyssFs} {file : VfsFile} (buf : List UInt8)
    (hn : file.privateData < maxInodes) (hnone : (fs.inodes file.privateData).blocks = 0)
    (hb : (allocBlock fs).1 ≠ 0) :
    abyssfsWrite fs file buf = abyssfsWrite ((allocBlock fs).2.setInode file.privateData
      { fs.inodes file.privateData with blocks := (allocBlock fs).1 }) file buf := by
  simp only [abyssfsWrite, getInode_of_lt hn, writeToBlocks, hnone, if_true,
    if_neg hb, setInode_self]

/-! ## All writes -/

/-- **Any number of writes** to a file with a block. -/
theorem writeAll_spec {fs : AbyssFs} {file : VfsFile} {bufs : List (List UInt8)} {s b : Nat}
    {mode : BitVec 32} (hn : file.privateData < maxInodes)
    (hnode : fs.inodes file.privateData = { mode := mode, size := s, blocks := b }) (hb : b ≠ 0)
    (hsum : s + bufs.flatten.length ≤ blockSize) :
    (writeAll fs file bufs).1 = bufs.map (fun buf => (buf.length : Int)) ∧
      (writeAll fs file bufs).2.inodes file.privateData =
        { mode := mode, size := s + bufs.flatten.length, blocks := b } ∧
      ∀ k, (writeAll fs file bufs).2.blocks (b * blockSize + k) =
        overlay (fun k => fs.blocks (b * blockSize + k)) bufs k := by
  induction bufs generalizing fs s with
  | nil => exact ⟨rfl, hnode, fun _ => rfl⟩
  | cons buf bufs ih =>
    rw [List.flatten_cons, List.length_append] at hsum ⊢
    have hsize : blockSize < 2 ^ 32 := by decide
    obtain ⟨hret, hnode', hblocks⟩ :=
      abyssfsWrite_of_block buf hn hnode hb (by omega) (by omega)
    obtain ⟨hrets, hnodes, hbytes⟩ := ih hnode' (by omega)
    refine ⟨?_, ?_, ?_⟩
    · rw [writeAll, List.map_cons, ← hret, ← hrets]
    · rw [← Nat.add_assoc]
      exact hnodes
    · intro k
      rw [overlay_cons]
      refine (hbytes k).trans ?_
      exact congrArg (fun m => overlay m bufs k) (funext hblocks)

/-! ## Reading in chunks -/

/-- One read from within the file. -/
theorem abyssfsRead_eq {fs : AbyssFs} {file : VfsFile} {s b : Nat} {mode : BitVec 32}
    (hn : file.privateData < maxInodes)
    (hnode : fs.inodes file.privateData = { mode := mode, size := s, blocks := b })
    (hs : s ≤ blockSize) (hpos : file.fPos ≤ s) (k : ChunkSize) :
    abyssfsRead fs file k.count =
      (some (memcpyFrom fs.blocks (b * blockSize + file.fPos) (min k.count (s - file.fPos))),
        { file with fPos := file.fPos + min k.count (s - file.fPos) }) := by
  have hk := k.lt
  simp only [abyssfsRead, getInode_of_lt hn, hnode]
  rw [Nat.mod_eq_of_lt (show file.fPos + k.count < 2 ^ 64 by omega)]
  by_cases hend : file.fPos ≥ s
  · have hzero : s - file.fPos = 0 := Nat.sub_eq_zero_of_le hend
    rw [if_pos hend, hzero, Nat.min_zero]
    rfl
  · rw [if_neg hend]
    by_cases hclip : file.fPos + k.count > s
    · rw [if_pos hclip, Nat.min_eq_right (by omega), Nat.mod_eq_of_lt (by omega)]
    · rw [if_neg hclip, Nat.min_eq_left (by omega), Nat.mod_eq_of_lt (by omega)]

/-- **Reading in chunks of any sizes** delivers the bytes from the position on. -/
theorem readAll_spec {fs : AbyssFs} {file : VfsFile} {ks : List ChunkSize} {s b : Nat}
    {mode : BitVec 32} (hn : file.privateData < maxInodes)
    (hnode : fs.inodes file.privateData = { mode := mode, size := s, blocks := b })
    (hs : s ≤ blockSize) (hpos : file.fPos ≤ s) :
    readAll fs file ks = some (((memcpyFrom fs.blocks (b * blockSize) s).drop file.fPos).take
      (ks.map ChunkSize.count).sum) := by
  induction ks generalizing file with
  | nil => rfl
  | cons k ks ih =>
    obtain ⟨n, hcut⟩ : ∃ n, n = min k.count (s - file.fPos) := ⟨_, rfl⟩
    have hslice := memcpyFrom_slice fs.blocks (b * blockSize) s file.fPos k.count
    have hrest := @ih { file with fPos := file.fPos + n } hn hnode (by dsimp only; omega)
    rw [readAll, abyssfsRead_eq hn hnode hs hpos, hslice, ← hcut]
    dsimp only
    rw [hrest, Option.map_some, List.map_cons, List.sum_cons, List.take_add, ← List.drop_drop]
    congr 2
    by_cases hle : k.count ≤ s - file.fPos
    · rw [hcut, Nat.min_eq_left hle]
    · rw [hcut, Nat.min_eq_right (by omega), List.drop_eq_nil_of_le (by simp),
        List.drop_eq_nil_of_le (by simp; omega)]

/-! ## New files -/

/-- A handle returned by `abyssfs_create` is on an empty file without a block. -/
theorem abyssfsCreate_fresh {heap : Heap} {fs : AbyssFs} {cwd path : Str} {file : VfsFile}
    (h : (abyssfsCreate heap fs cwd path).1 = some file) :
    file.fPos = 0 ∧ file.privateData < maxInodes ∧
      (abyssfsCreate heap fs cwd path).2.2.inodes file.privateData =
        { mode := 0x1FF, size := 0, blocks := 0 } := by
  have hnode := abyssfsCreate_inodes heap fs cwd path
  rcases allocInode_spec fs with hnone | ⟨i, hi, hpos, hlt, -⟩
  · simp only [abyssfsCreate, hnone, if_true] at h
    cases h
  · have hfile : file = { fOps := .abyssfs, privateData := i, fPos := 0 } := by
      simp only [abyssfsCreate, hi, if_neg (show i ≠ 0 by omega)] at h
      split at h
      · cases h
      · split at h
        · cases h
        · exact (Option.some.inj h).symm
    rw [hfile]
    refine ⟨rfl, hlt, ?_⟩
    rw [hnode, hi]
    exact setInode_self

/-- Writes to a new file: the first takes a block. -/
theorem writeAll_fresh {fs : AbyssFs} {file : VfsFile} {bufs : List (List UInt8)}
    (hn : file.privateData < maxInodes)
    (hnode : fs.inodes file.privateData = { mode := 0x1FF, size := 0, blocks := 0 })
    (hb : (allocBlock fs).1 ≠ 0) (hne : bufs ≠ []) (hsum : bufs.flatten.length ≤ blockSize) :
    (writeAll fs file bufs).1 = bufs.map (fun buf => (buf.length : Int)) ∧
      (writeAll fs file bufs).2.inodes file.privateData =
        { mode := 0x1FF, size := bufs.flatten.length, blocks := (allocBlock fs).1 } ∧
      ∀ k, (writeAll fs file bufs).2.blocks ((allocBlock fs).1 * blockSize + k) =
        overlay (fun k => fs.blocks ((allocBlock fs).1 * blockSize + k)) bufs k := by
  obtain ⟨buf, rest, rfl⟩ := List.exists_cons_of_ne_nil hne
  have hblocks : (fs.inodes file.privateData).blocks = 0 := by rw [hnode]
  have hfirst := abyssfsWrite_of_no_block buf hn hblocks hb
  have hsame : writeAll fs file (buf :: rest) =
      writeAll ((allocBlock fs).2.setInode file.privateData
        { fs.inodes file.privateData with blocks := (allocBlock fs).1 }) file (buf :: rest) := by
    rw [writeAll, hfirst, writeAll]
  have hstart : ((allocBlock fs).2.setInode file.privateData
      { fs.inodes file.privateData with blocks := (allocBlock fs).1 }).inodes file.privateData =
        { mode := 0x1FF, size := 0, blocks := (allocBlock fs).1 } := by
    rw [setInode_self, hnode]
  have hspec := writeAll_spec hn hstart hb (by rwa [Nat.zero_add])
  rw [← hsame, Nat.zero_add] at hspec
  obtain ⟨hret, hinode, hbytes⟩ := hspec
  refine ⟨hret, hinode, ?_⟩
  intro k
  rw [hbytes]
  dsimp only [AbyssFs.setInode]
  rw [(allocBlock_frame fs).1]

/-- Writes through a handle on an empty file without a block. -/
theorem accumulates_fresh {fs : AbyssFs} {file : VfsFile} {bufs : List (List UInt8)}
    (hpos : file.fPos = 0) (hn : file.privateData < maxInodes)
    (hnode : fs.inodes file.privateData = { mode := 0x1FF, size := 0, blocks := 0 })
    (hb : (allocBlock fs).1 ≠ 0) (hsum : bufs.flatten.length ≤ blockSize) :
    Accumulates fs file bufs ↔ ∀ k < bufs.flatten.length,
      overlay (fun k => fs.blocks ((allocBlock fs).1 * blockSize + k)) bufs k =
        bufs.flatten.getD k 0 := by
  by_cases hne : bufs = []
  · subst hne
    have hread : ∀ ks, readAll fs file ks = some [] := fun ks => by
      rw [readAll_spec hn hnode (Nat.zero_le _) (Nat.le_of_eq hpos)]
      simp [memcpyFrom]
    refine ⟨fun _ k hk => absurd hk (Nat.not_lt_zero k), fun _ => ⟨rfl, ?_, ?_⟩⟩
    · rw [writeAll, hnode]
      rfl
    · intro ks
      rw [writeAll, hread, List.flatten_nil, List.take_nil]
  · obtain ⟨hret, hinode, hbytes⟩ := writeAll_fresh hn hnode hb hne hsum
    have hread : ∀ ks, readAll (writeAll fs file bufs).2 file ks =
        some ((memcpyFrom (writeAll fs file bufs).2.blocks ((allocBlock fs).1 * blockSize)
          bufs.flatten.length).take (ks.map ChunkSize.count).sum) := fun ks => by
      rw [readAll_spec hn hinode hsum (by rw [hpos]; exact Nat.zero_le _), hpos, List.drop_zero]
    have hcontent : memcpyFrom (writeAll fs file bufs).2.blocks ((allocBlock fs).1 * blockSize)
          bufs.flatten.length = bufs.flatten ↔
        ∀ k < bufs.flatten.length, overlay (fun k =>
          fs.blocks ((allocBlock fs).1 * blockSize + k)) bufs k = bufs.flatten.getD k 0 := by
      rw [memcpyFrom_eq_iff]
      exact forall₂_congr fun k _ => by rw [hbytes]
    rw [← hcontent]
    refine ⟨fun hacc => ?_, fun heq => ⟨hret, by rw [hinode], fun ks => by rw [hread, heq]⟩⟩
    have hall := hacc.read [{ count := blockSize, lt := by decide }]
    have hlen : bufs.flatten.length ≤ ([ChunkSize.mk blockSize (by decide)].map
        ChunkSize.count).sum := hsum
    rw [hread, Option.some_inj, List.take_of_length_le (by simpa using hlen),
      List.take_of_length_le hlen] at hall
    exact hall

/-- **The writes to a new file accumulate if and only if every byte of the buffers, put one after
the other, is that of the last buffer long enough to have a byte at this place.** -/
theorem accumulates_iff {heap : Heap} {fs : AbyssFs} {cwd path : Str} {file : VfsFile}
    (h : (abyssfsCreate heap fs cwd path).1 = some file) {bufs : List (List UInt8)}
    (hsum : bufs.flatten.length ≤ blockSize)
    (hblock : (allocBlock (abyssfsCreate heap fs cwd path).2.2).1 ≠ 0) :
    Accumulates (abyssfsCreate heap fs cwd path).2.2 file bufs ↔
      ∀ k < bufs.flatten.length, overlay (fun k => (abyssfsCreate heap fs cwd path).2.2.blocks
        ((allocBlock (abyssfsCreate heap fs cwd path).2.2).1 * blockSize + k)) bufs k =
          bufs.flatten.getD k 0 := by
  obtain ⟨hpos, hn, hnode⟩ := abyssfsCreate_fresh h
  exact accumulates_fresh hpos hn hnode hblock hsum

/-- `alloc_inode` takes no block. -/
theorem allocInode_bitmap (fs : AbyssFs) : (allocInode fs).2.blockBitmap = fs.blockBitmap := by
  rcases allocInode_spec fs with hnone | ⟨i, hi, -⟩
  · rw [hnone]
  · rw [hi]
    rfl

/-- `create_file` takes no block. -/
theorem createFile_bitmap (fs : AbyssFs) (cwd name : Str) (i : Nat) :
    (createFile fs cwd name i).2.blockBitmap = fs.blockBitmap := by
  unfold createFile
  cases createDir fs cwd with
  | none => rfl
  | some dirInode =>
    dsimp only
    split
    · rfl
    · split <;> rfl

/-- `abyssfs_create` takes no block. -/
theorem abyssfsCreate_bitmap (heap : Heap) (fs : AbyssFs) (cwd path : Str) :
    (abyssfsCreate heap fs cwd path).2.2.blockBitmap = fs.blockBitmap := by
  have hinode := allocInode_bitmap fs
  unfold abyssfsCreate
  dsimp only
  split
  · exact hinode
  · split
    · exact (createFile_bitmap _ _ _ _).trans hinode
    · split <;> exact (createFile_bitmap _ _ _ _).trans hinode

/-- Which block comes next depends on the bitmap only. -/
theorem allocBlock_congr {fs fs' : AbyssFs} (h : fs.blockBitmap = fs'.blockBitmap) :
    (allocBlock fs).1 = (allocBlock fs').1 := by
  unfold allocBlock
  rw [h]
  split <;> rfl

/-- In a fresh file system with the file `a` there is a block for the first write. -/
theorem allocBlock_create_init : (allocBlock (abyssfsCreate (Heap.mk 0) (abyssfsInit fun _ => 0)
    [slash] nameA.bytes).2.2).1 ≠ 0 := by
  rw [allocBlock_congr (abyssfsCreate_bitmap _ _ _ _)]
  decide

/-- Of two writes of one byte each, the second is stored over the first. -/
theorem not_accumulates_two :
    (abyssfsCreate (Heap.mk 0) (abyssfsInit fun _ => 0) [slash] nameA.bytes).1 =
        some { fOps := .abyssfs, privateData := 2, fPos := 0 } ∧
      (allocBlock (abyssfsCreate (Heap.mk 0) (abyssfsInit fun _ => 0) [slash]
        nameA.bytes).2.2).1 ≠ 0 ∧
      ¬ Accumulates (abyssfsCreate (Heap.mk 0) (abyssfsInit fun _ => 0) [slash] nameA.bytes).2.2
        { fOps := .abyssfs, privateData := 2, fPos := 0 } [[1], [2]] := by
  refine ⟨abyssfsCreate_init, allocBlock_create_init, ?_⟩
  intro hacc
  obtain ⟨hpos, hn, hnode⟩ := abyssfsCreate_fresh abyssfsCreate_init
  have hfirst := (accumulates_fresh hpos hn hnode allocBlock_create_init (by decide)).1 hacc 0
    (by decide)
  simp [overlay] at hfirst

/-- `abyssfs_create` in the root writes to no block behind the root's. -/
theorem RootInv.create_outside {fs : AbyssFs} {rs : List DirRecord}
    (h : RootInv fs rs) (heap : Heap) (n : EntryName)
    (hroom : 20 + dirFormat.span rs + recSize n.bytes.length ≤ 4088) {x : Nat}
    (hx : rootAddr + blockSize ≤ x) :
    (abyssfsCreate heap fs [slash] n.bytes).2.2.blocks x = fs.blocks x := by
  rcases h.kept.allocInode with hnone | ⟨i, hi, h2, hlt, -, -, hkept⟩
  · simp only [abyssfsCreate, hnone, if_true]
  · have hi32 : i < 2 ^ 32 := inode_lt_two_pow hlt
    obtain ⟨prev, hprev, hspec⟩ := hkept.dir.create n.nul_free n.length_le hi32 hroom
    have hfile := hkept.createFile_eq hprev n.bytes i
    have hout := (hspec _ rfl).2 x (Or.inr hx)
    have hblocks : (OsArm.allocInode fs).2.blocks = fs.blocks := by rw [hi]; rfl
    have hne : ¬ i = 0 := by omega
    have hfirst : (OsArm.allocInode fs).1 = i := by rw [hi]
    rw [n.basename_eq] at hfile
    unfold abyssfsCreate
    simp only [hfirst, if_neg hne, n.dropWhile_slash, hfile, lt_self_iff_false, if_false]
    cases kalloc heap sizeofVfsFile with
    | none => exact hout.trans (congrFun hblocks x)
    | some r => exact hout.trans (congrFun hblocks x)

/-- Zeros in the block that the first write gets: writes of zeros, one of no byte among them, are
read back. -/
theorem accumulates_iff_zeros :
    Accumulates (abyssfsCreate (Heap.mk 0) (abyssfsInit fun _ => 0) [slash] nameA.bytes).2.2
      { fOps := .abyssfs, privateData := 2, fPos := 0 } [[0, 0], [], [0]] := by
  refine (accumulates_iff abyssfsCreate_init (by decide) allocBlock_create_init).2 ?_
  have hblock : (allocBlock (abyssfsCreate (Heap.mk 0) (abyssfsInit fun _ => 0) [slash]
      nameA.bytes).2.2).1 = 10 := by
    rw [allocBlock_congr (abyssfsCreate_bitmap _ _ _ _)]
    decide
  have hzero : (abyssfsCreate (Heap.mk 0) (abyssfsInit fun _ => 0) [slash] nameA.bytes).2.2.blocks
      (10 * blockSize + 2) = 0 := by
    rw [(rootInv_init fun _ => 0).create_outside (Heap.mk 0) nameA (by decide) (by decide)]
    exact abyssfsInit_clean (by decide) (by decide)
  have hoverlay : ∀ f : Nat → UInt8, f 2 = 0 → ∀ k, k < 3 →
      overlay f [[0, 0], [], [0]] k = [[0, 0], [], [0]].flatten.getD k 0 := by
    intro f hf k hk
    obtain rfl | rfl | rfl : k = 0 ∨ k = 1 ∨ k = 2 := by omega
    · rfl
    · rfl
    · exact hf
  intro k hk
  rw [hblock]
  refine hoverlay _ ?_ k hk
  exact hzero

end OsArm
