import OsArm.Abyss.Directory
import OsArm.Abyss.Ownership

/-!
# The AbyssFS root directory as a list of entries

`RootInv fs rs` ties the three structures of AbyssFS together: `rs` are the
entries of the root block, every one of them refers to a live inode of its own,
and the inodes own their blocks exclusively.  `RootKept fs rs` is the part of it that
does not ask what the names look like.  Each operation keeps both, and this file says
what it does to `rs`:

* `RootInv.create`, `RootInv.mkdir` — one entry more, with the inode that was
  allocated, or (when there is no inode, or no block) none;
* `RootInv.unlink_some`, `RootInv.unlink_none` — the first entry of the name is
  gone, or nothing happens at all;
* `RootInv.write` — nothing;
* `RootInv.readDir` — the listing is `"."`, `".."` and `rs`.
-/

namespace OsArm

/-! ## Names -/

/-- A name that can be given to an entry of the root directory. -/
structure EntryName where
  bytes : Str
  nonempty : bytes ≠ []
  length_le : bytes.length ≤ 245
  no_slash : slash ∉ bytes
  nul_free : NulFree bytes
  ne_dot : bytes ≠ str ['.']
  ne_dotdot : bytes ≠ str ['.', '.']

/-- Stripping leading slashes does nothing to a path that does not start with one. -/
theorem dropWhile_slash {s : Str} (h : ∀ t, s ≠ slash :: t) : s.dropWhile (· = slash) = s := by
  cases s with
  | nil => rfl
  | cons c cs =>
    rw [List.dropWhile_cons, if_neg]
    intro hc
    rw [decide_eq_true_eq] at hc
    exact h cs (by rw [hc])

/-- A leading slash is stripped. -/
theorem dropWhile_slash_cons (s : Str) :
    (slash :: s).dropWhile (· = slash) = s.dropWhile (· = slash) :=
  List.dropWhile_cons_of_pos (by simp)

/-- A name without a slash is left alone by the stripping. -/
theorem dropWhile_of_notMem {s : Str} (h : slash ∉ s) : s.dropWhile (· = slash) = s :=
  dropWhile_slash fun t ht => h (by rw [ht]; exact List.mem_cons_self)

theorem dropWhile_append_of_nil {s t : Str} (h : s.dropWhile (· = slash) = []) :
    (s ++ t).dropWhile (· = slash) = t.dropWhile (· = slash) := by
  rw [List.dropWhile_append, h]
  rfl

theorem dropWhile_append_of_ne_nil {s t : Str} (h : s.dropWhile (· = slash) ≠ []) :
    (s ++ t).dropWhile (· = slash) = s.dropWhile (· = slash) ++ t := by
  rw [List.dropWhile_append, if_neg]
  simpa [List.isEmpty_iff] using h

namespace EntryName

theorem dropWhile_slash (n : EntryName) : n.bytes.dropWhile (· = slash) = n.bytes :=
  OsArm.dropWhile_slash fun t h => n.no_slash (by rw [h]; exact List.mem_cons_self)

@[simp] theorem basename_eq (n : EntryName) : basename n.bytes = n.bytes := by
  rw [basename, strrchr_eq_none_iff.2 n.no_slash]

theorem basename_strip (n : EntryName) : basename (n.bytes.dropWhile (· = slash)) = n.bytes := by
  rw [n.dropWhile_slash, n.basename_eq]

/-- All of a name is stored. -/
theorem length_mod (n : EntryName) : n.bytes.length % 256 = n.bytes.length :=
  Nat.mod_eq_of_lt (Nat.lt_of_le_of_lt n.length_le (by omega))

/-- The directory record of an entry. -/
def record (n : EntryName) (inode : Nat) (hi : inode < maxInodes) : DirRecord :=
  entryRecord n.bytes inode n.nul_free n.length_le (inode_lt_two_pow hi)

@[simp] theorem record_name (n : EntryName) (i : Nat) (hi : i < maxInodes) :
    (n.record i hi).name = n.bytes := rfl

@[simp] theorem record_inode (n : EntryName) (i : Nat) (hi : i < maxInodes) :
    (n.record i hi).inode = i := rfl

@[simp] theorem record_size (n : EntryName) (i : Nat) (hi : i < maxInodes) :
    (n.record i hi).size = recSize n.bytes.length := rfl

theorem ne_dots (n : EntryName) : n.bytes ≠ dot.name ∧ n.bytes ≠ (dotdot false).name :=
  ⟨n.ne_dot, n.ne_dotdot⟩

end EntryName

/-! ## The invariant -/

/-- **The invariant of AbyssFS**, as far as its root directory goes. -/
structure RootInv (fs : AbyssFs) (rs : List DirRecord) : Prop where
  own : Ownership fs
  dir : RootDir fs.blocks rs
  /-- Entries refer to inodes in use, none of them the root's. -/
  live : ∀ r ∈ rs, 2 ≤ r.inode ∧ r.inode < maxInodes ∧ (fs.inodes r.inode).mode ≠ 0
  /-- No two entries share an inode. -/
  nodup : (rs.map DirRecord.inode).Nodup
  names : ∀ r ∈ rs, ∃ n : EntryName, n.bytes = r.name

/-- The part of the invariant that holds whatever the names are: an entry's name has no
slash, since `create_file` takes the last component of its path. -/
structure RootKept (fs : AbyssFs) (rs : List DirRecord) : Prop where
  own : Ownership fs
  dir : RootDir fs.blocks rs
  live : ∀ r ∈ rs, 2 ≤ r.inode ∧ r.inode < maxInodes ∧ (fs.inodes r.inode).mode ≠ 0
  nodup : (rs.map DirRecord.inode).Nodup
  noSlash : ∀ r ∈ rs, slash ∉ r.name

theorem mem_inodes {rs : List DirRecord} {r : DirRecord} (h : r ∈ rs) :
    r.inode ∈ rs.map DirRecord.inode := List.mem_map_of_mem h

/-- `abyssfs_init` builds a root without entries. -/
theorem rootInv_init (m : ByteMem) : RootInv (abyssfsInit m) [] where
  own := by
    have hblocks : ∀ n, n ≠ 1 → (abyssfsInit m).inodes n = Inode.zero := fun n hn => if_neg hn
    have hroot : (abyssfsInit m).inodes 1 =
        { mode := 0x4000, size := blockSize, blocks := rootBlock } := by simp [abyssfsInit]
    have hbits : ∀ i : Fin 10, (abyssfsInit m).blockBitmap.getLsbD i = true := by
      have hmap : (abyssfsInit m).blockBitmap = 0x3FF#64 := by
        simp only [abyssfsInit]
        decide
      rw [hmap]
      decide
    refine ⟨fun i hi => hbits ⟨i, by rw [rootBlock, inodeBlocks] at hi; omega⟩, ?_, ?_, ?_, ?_⟩
    · rw [hroot]
      exact ⟨rfl, rfl⟩
    · intro n hn
      rw [hblocks n hn]
      exact Or.inl rfl
    · intro n _ hne
      by_cases hn : n = 1
      · subst hn
        rw [hroot]
        exact hbits ⟨9, by omega⟩
      · rw [hblocks n hn] at hne
        exact absurd rfl hne
    · intro n k hnk _ _ hne
      by_cases hn : n = 1
      · subst hn
        rw [hroot, hblocks k (Ne.symm hnk)]
        decide
      · rw [hblocks n hn] at hne
        exact absurd rfl hne
  dir := rootDir_init m
  live := by simp
  nodup := by simp
  names := by simp

/-- The first inode that a fresh file system hands out. -/
theorem allocInode_init : (allocInode (abyssfsInit fun _ => 0)).1 = 2 := rfl

/-- What `releaseInode` leaves alone. -/
theorem releaseInode_frame {fs : AbyssFs} {n k : Nat} :
    (releaseInode fs n).blocks = fs.blocks ∧
      (k ≠ n → (releaseInode fs n).inodes k = fs.inodes k) := by
  unfold releaseInode
  cases getInode fs n with
  | none => exact ⟨rfl, fun _ => rfl⟩
  | some inode =>
    dsimp only
    split
    · unfold freeBlock
      split
      · exact ⟨rfl, fun hk => setInode_of_ne hk⟩
      · exact ⟨rfl, fun hk => setInode_of_ne hk⟩
    · exact ⟨rfl, fun hk => setInode_of_ne hk⟩

/-- What the root block tells `abyssfs_read_dir`. -/
theorem RootDir.readDir {fs : AbyssFs} {rs : List DirRecord} (h : RootDir fs.blocks rs) (c : Nat) :
    abyssfsReadDir fs [slash] c =
      some (((dot :: dotdot false :: rs).map DirRecord.toDirent).take c) := by
  have hempty : [slash].dropWhile (· = slash) = [] := rfl
  have hblock : (some rootBlock).bind getBlock = some rootAddr := rfl
  unfold abyssfsReadDir
  dsimp only
  rw [hempty, if_pos rfl, hblock]
  exact congrArg some (h.readEntries_eq c)

/-- A name that no record of the root has: `abyssfs_unlink` answers -1 and changes nothing. -/
theorem RootDir.unlink_none {fs : AbyssFs} {rs : List DirRecord} (h : RootDir fs.blocks rs)
    {path name : Str} (hname : path.dropWhile (· = slash) = name) (hn : NulFree name)
    (hdots : name ≠ dot.name ∧ name ≠ (dotdot false).name) (hne : ∀ r ∈ rs, r.name ≠ name) :
    abyssfsUnlink fs path = (-1, fs) := by
  have hfind := h.findEntry_eq_none hn hdots hne
  have haddr : rootBlock * blockSize = rootAddr := rfl
  simp only [abyssfsUnlink, hname, haddr, hfind]

/-- The first entry of a name: `abyssfs_unlink` releases its inode and takes it out. -/
theorem RootDir.unlink_some {fs : AbyssFs} {rs ts : List DirRecord} {r : DirRecord}
    (h : RootDir fs.blocks (rs ++ r :: ts)) {path : Str}
    (hr : path.dropWhile (· = slash) = r.name)
    (hdots : r.name ≠ dot.name ∧ r.name ≠ (dotdot false).name) (hne : ∀ q ∈ rs, q.name ≠ r.name) :
    abyssfsUnlink fs path = (0, { releaseInode fs r.inode with
      blocks := removeEntry fs.blocks rootAddr (rootAddr + (20 + dirFormat.span rs)) }) := by
  obtain ⟨hfind, hstored⟩ := h.findEntry_eq_some hdots hne
  have hblocks : (releaseInode fs r.inode).blocks = fs.blocks := (releaseInode_frame (k := 0)).1
  have haddr : rootBlock * blockSize = rootAddr := rfl
  unfold abyssfsUnlink
  simp only [hr, haddr, hfind, hstored.1, hblocks]

namespace RootKept

variable {fs fs' : AbyssFs} {rs ts : List DirRecord} {r : DirRecord}

/-- Whatever changes neither the root block nor the modes of the entries' inodes
keeps the invariant, if it keeps the ownership. -/
theorem frame (h : RootKept fs rs) (hown : Ownership fs')
    (hblocks : ∀ x, rootAddr ≤ x → x < rootAddr + blockSize → fs'.blocks x = fs.blocks x)
    (hmode : ∀ r ∈ rs, (fs'.inodes r.inode).mode ≠ 0) : RootKept fs' rs where
  own := hown
  dir := h.dir.frame hblocks
  live r hr := ⟨(h.live r hr).1, (h.live r hr).2.1, hmode r hr⟩
  nodup := h.nodup
  noSlash := h.noSlash

/-- A data block does not meet the root block. -/
theorem dataBlock_disjoint {b x : Nat} (hb : rootBlock < b)
    (hx : x < rootAddr + blockSize) : x < b * blockSize := by
  have hle : (rootBlock + 1) * blockSize ≤ b * blockSize := Nat.mul_le_mul_right _ hb
  have hend : (rootBlock + 1) * blockSize = rootAddr + blockSize := Nat.succ_mul _ _
  omega

/-! ## Creating -/

/-- The inode `alloc_inode` finds is nobody's entry, and is not the root's. -/
theorem allocInode (h : RootKept fs rs) :
    OsArm.allocInode fs = (0, fs) ∨ ∃ i, OsArm.allocInode fs = (i, fs.setInode i
      { Inode.zero with mode := 0x1FF }) ∧ 2 ≤ i ∧ i < maxInodes ∧ (fs.inodes i).mode = 0 ∧
      i ∉ rs.map DirRecord.inode ∧ RootKept (OsArm.allocInode fs).2 rs := by
  rcases allocInode_spec fs with hnone | ⟨i, hi, hpos, hlt, hmode⟩
  · exact Or.inl hnone
  · have hne : i ≠ 1 := by
      have := h.own.allocInode_ne_root
      rwa [hi] at this
    have hfresh : ∀ q ∈ rs, q.inode ≠ i := by
      rintro q hq rfl
      exact (h.live q hq).2.2 hmode
    have hmem : i ∉ rs.map DirRecord.inode := by
      intro hi'
      obtain ⟨q, hq, hqi⟩ := List.mem_map.1 hi'
      exact hfresh q hq hqi
    refine Or.inr ⟨i, hi, by omega, hlt, hmode, hmem, ?_⟩
    have hown := h.own.allocInode
    rw [hi] at hown ⊢
    refine h.frame hown (fun _ _ _ => rfl) ?_
    intro q hq
    rw [setInode_of_ne (hfresh q hq)]
    exact (h.live q hq).2.2

/-- One entry more. -/
theorem append (h : RootKept fs rs) (hdir : RootDir fs'.blocks (rs ++ [r]))
    (hown : Ownership fs') (hinodes : fs'.inodes = fs.inodes) (h2 : 2 ≤ r.inode)
    (hlt : r.inode < maxInodes) (hlive : (fs.inodes r.inode).mode ≠ 0)
    (hfresh : r.inode ∉ rs.map DirRecord.inode) (hslash : slash ∉ r.name) :
    RootKept fs' (rs ++ [r]) where
  own := hown
  dir := hdir
  live := by
    intro q hq
    rw [hinodes]
    rcases List.mem_append.1 hq with hq | hq
    · exact h.live q hq
    · rw [List.mem_singleton.1 hq]
      exact ⟨h2, hlt, hlive⟩
  nodup := by
    rw [List.map_append, List.nodup_append]
    refine ⟨h.nodup, by simp, ?_⟩
    rintro a ha b hb rfl
    rw [List.map_singleton, List.mem_singleton] at hb
    exact hfresh (by rwa [hb] at ha)
  noSlash := by
    intro q hq
    rcases List.mem_append.1 hq with hq | hq
    · exact h.noSlash q hq
    · rw [List.mem_singleton.1 hq]
      exact hslash

/-- What `create_file` does for a process in the root directory. -/
theorem createFile_eq (h : RootKept fs rs) {prev : Nat}
    (hprev : (lastEntry fs.blocks (rootAddr + blockSize) blockSize rootAddr none).2 = some prev)
    (name : Str) (i : Nat) :
    OsArm.createFile fs [slash] name i = (0, { fs with
      blocks := writeEntry (shrinkEntry fs.blocks prev (rootAddr + blockSize))
        (prev + minRecLen (nameLen fs.blocks prev)) i (basename name) }) := by
  have hroot : createDir fs [slash] = some 1 := if_neg (by simp)
  have hblocks : (fs.inodes 1).blocks = rootBlock := h.own.root.2
  have hne : rootBlock ≠ 0 := by decide
  have haddr : rootBlock * blockSize = rootAddr := rfl
  unfold OsArm.createFile
  simp only [hroot, hblocks, hne, false_and, if_false, haddr, hprev]

/-- **`create_file` in the root** adds one entry, or none when the name gives a record of
length 0, and touches the root block only. -/
theorem createFile (h : RootKept fs rs) (name : Str) (hn : NulFree (basename name)) {i : Nat}
    (h2 : 2 ≤ i) (hi : i < maxInodes) (hi32 : i < 2 ^ 32) (hlive : (fs.inodes i).mode ≠ 0)
    (hfresh : i ∉ rs.map DirRecord.inode) (hlen : (basename name).length % 256 ≤ 249)
    (hroom : 20 + dirFormat.span rs + recSize ((basename name).length % 256) ≤ 4088) :
    (OsArm.createFile fs [slash] name i).1 = 0 ∧
      (OsArm.createFile fs [slash] name i).2.inodes = fs.inodes ∧
      ∃ added, RootKept (OsArm.createFile fs [slash] name i).2 (rs ++ added) ∧
        ∀ hl : (basename name).length ≤ 245,
          added = [entryRecord (basename name) i hn hl hi32] := by
  have hbig : rootAddr + blockSize < 2 ^ 64 := by rw [blockSize, rootAddr_eq]; omega
  -- what is stored of the name
  obtain ⟨stored, hstored⟩ : ∃ s, s = (basename name).take ((basename name).length % 256) :=
    ⟨_, rfl⟩
  have hlength : stored.length = (basename name).length % 256 := by
    rw [hstored, List.length_take, Nat.min_eq_left (Nat.mod_le _ _)]
  have hmem : ∀ c ∈ stored, c ∈ basename name := by
    rw [hstored]
    exact fun c => List.mem_of_mem_take
  have hnul : NulFree stored := fun hmem' => hn (hmem 0 hmem')
  have hwrite : ∀ m e, writeEntry m e i stored = writeEntry m e i (basename name) := by
    rw [hstored]
    exact fun m e => writeEntry_take m e i (basename name)
  rw [← hlength] at hlen hroom
  obtain ⟨ts, last, last', -, -, -, -, -, -, hprev⟩ := h.dir.block.last
  rw [h.createFile_eq hprev, ← hwrite]
  refine ⟨rfl, rfl, ?_⟩
  by_cases hl : stored.length ≤ 245
  · obtain ⟨prev, hprev', hspec⟩ := h.dir.create hnul hl hi32 hroom
    rw [hprev, Option.some.injEq] at hprev'
    obtain ⟨hdir, -⟩ := hspec _ rfl
    rw [← hprev'] at hdir
    refine ⟨_, h.append hdir (h.own.setBlocks _) rfl h2 hi hlive hfresh
      fun hmem' => (basename_spec name).1 (hmem slash hmem'), ?_⟩
    intro hl'
    have heq : stored = basename name := by
      rw [hstored, Nat.mod_eq_of_lt (by omega), List.take_length]
    subst heq
    rfl
  · have hdir := RootDir.block h.dir |>.create_hidden
      (writeEntry (shrinkEntry fs.blocks (rootAddr + dirFormat.span ts) (rootAddr + blockSize))
        (rootAddr + dirFormat.span ts + minRecLen
          (nameLen fs.blocks (rootAddr + dirFormat.span ts)))
        i stored) hbig hprev
      (fun x hx => writeEntry_frame (Or.inl hx)) (by
        rw [recLen_writeEntry, Nat.mod_eq_of_lt (by omega)]
        exact minRecLen_eq_zero (by omega) hlen)
    refine ⟨[], ?_, ?_⟩
    · rw [List.append_nil]
      exact ⟨h.own.setBlocks _, RootDir.of_block hdir, h.live, h.nodup, h.noSlash⟩
    · intro hl'
      rw [Nat.mod_eq_of_lt (by omega)] at hlength
      omega

/-- **`abyssfs_create` in the root.**  Without a free inode nothing happens; otherwise a
handle on the inode that was allocated, if `kalloc` has room for one, and its entry. -/
theorem create (h : RootKept fs rs) (heap : Heap) (path : Str) {name : Str}
    (hname : basename (path.dropWhile (· = slash)) = name) (hn : NulFree name)
    (hlen : name.length % 256 ≤ 249)
    (hroom : 20 + dirFormat.span rs + recSize (name.length % 256) ≤ 4088) :
    (OsArm.allocInode fs).1 = 0 ∧ abyssfsCreate heap fs [slash] path = (none, heap, fs) ∨
      ∃ (i : Nat) (hi32 : i < 2 ^ 32), (OsArm.allocInode fs).1 = i ∧
        (abyssfsCreate heap fs [slash] path).1 = (kalloc heap sizeofVfsFile).map (fun _ =>
          { fOps := .abyssfs, privateData := i, fPos := 0 }) ∧
        2 ≤ i ∧ i < maxInodes ∧ ∃ added,
          RootKept (abyssfsCreate heap fs [slash] path).2.2 (rs ++ added) ∧
            ∀ hl : name.length ≤ 245, added = [entryRecord name i hn hl hi32] := by
  subst hname
  rcases h.allocInode with hnone | ⟨i, hi, h2, hlt, -, hfresh, hinv⟩
  · refine Or.inl ⟨by rw [hnone], ?_⟩
    simp only [abyssfsCreate, hnone, if_true]
  · rw [hi] at hinv
    have hi32 : i < 2 ^ 32 := inode_lt_two_pow hlt
    obtain ⟨hret, -, hinv'⟩ :=
      hinv.createFile _ hn h2 hlt hi32 (by rw [setInode_self]; simp) hfresh hlen hroom
    have hhandle : (abyssfsCreate heap fs [slash] path).1 = (kalloc heap sizeofVfsFile).map fun _ =>
        { fOps := .abyssfs, privateData := i, fPos := 0 } := by
      unfold abyssfsCreate
      cases kalloc heap sizeofVfsFile <;>
        simp only [hi, if_neg (show i ≠ 0 by omega), hret, lt_self_iff_false, if_false, Option.map]
    have hdisk : (abyssfsCreate heap fs [slash] path).2.2 =
        (OsArm.createFile (fs.setInode i { Inode.zero with mode := 0x1FF }) [slash]
          (path.dropWhile (· = slash)) i).2 := by
      unfold abyssfsCreate
      cases kalloc heap sizeofVfsFile <;>
        simp only [hi, if_neg (show i ≠ 0 by omega), hret, lt_self_iff_false, if_false]
    refine Or.inr ⟨i, hi32, by rw [hi], hhandle, h2, hlt, ?_⟩
    rw [hdisk]
    exact hinv'

/-- `abyssfs_mkdir` builds the directory block away from the root block. -/
theorem initDir (h : RootKept fs rs) {i : Nat} (hi : i ∉ rs.map DirRecord.inode) (hne : i ≠ 1)
    (hlive : (fs.inodes i).mode ≠ 0) (hb : (allocBlock fs).1 ≠ 0) :
    RootKept (OsArm.initDir (allocBlock fs).2 i (allocBlock fs).1) rs ∧
      ((OsArm.initDir (allocBlock fs).2 i (allocBlock fs).1).inodes i).mode ≠ 0 := by
  obtain ⟨hdata, -, -⟩ := h.own.allocBlock_fresh hb
  obtain ⟨hblocks, hinodes⟩ := allocBlock_frame fs
  have hmode : ((OsArm.initDir (allocBlock fs).2 i (allocBlock fs).1).inodes i).mode =
      (fs.inodes i).mode ||| 0x4000 := by
    simp only [OsArm.initDir, setInode_self, hinodes]
  refine ⟨h.frame ((h.own.assign hne hb rfl).setBlocks _) (fun x _ hx => ?_) fun q hq => ?_, ?_⟩
  · have hout := dataBlock_disjoint hdata hx
    simp only [OsArm.initDir]
    rw [putDots_outside (Or.inl hout), setInode_blocks, hblocks]
  · have hqi : q.inode ≠ i := fun hqi => hi (hqi ▸ mem_inodes hq)
    simp only [OsArm.initDir]
    rw [setInode_of_ne hqi, hinodes]
    exact (h.live q hq).2.2
  · rw [hmode]
    exact fun h0 => hlive (BitVec.or_eq_zero_iff.1 h0).1

/-- **`abyssfs_mkdir` in the root.**  The entry of the inode that was allocated; or -1 and
the same entries, when inodes or blocks have run out. -/
theorem mkdir (h : RootKept fs rs) (path : Str) {name : Str}
    (hname : basename (path.dropWhile (· = slash)) = name) (hn : NulFree name)
    (hlen : name.length % 256 ≤ 249)
    (hroom : 20 + dirFormat.span rs + recSize (name.length % 256) ≤ 4088) :
    (abyssfsMkdir fs [slash] path).1 = -1 ∧ RootKept (abyssfsMkdir fs [slash] path).2 rs ∨
      ∃ (i : Nat) (hi32 : i < 2 ^ 32), (OsArm.allocInode fs).1 = i ∧ 2 ≤ i ∧ i < maxInodes ∧
        (abyssfsMkdir fs [slash] path).1 = 0 ∧ ∃ added,
          RootKept (abyssfsMkdir fs [slash] path).2 (rs ++ added) ∧
            ∀ hl : name.length ≤ 245, added = [entryRecord name i hn hl hi32] := by
  have hbase : basename name = name := by
    rw [← hname, basename_basename]
  rcases h.allocInode with hnone | ⟨i, hi, h2, hlt, -, hfresh, hinv⟩
  · refine Or.inl ?_
    simp only [abyssfsMkdir, hnone, if_true]
    exact ⟨trivial, h⟩
  · have hi32 : i < 2 ^ 32 := inode_lt_two_pow hlt
    have hlive : ((OsArm.allocInode fs).2.inodes i).mode ≠ 0 := by
      rw [hi, setInode_self]
      simp
    by_cases hb : (allocBlock (OsArm.allocInode fs).2).1 = 0
    · refine Or.inl ?_
      have hcall : abyssfsMkdir fs [slash] path = (-1, (OsArm.allocInode fs).2) := by
        simp only [abyssfsMkdir, hi] at hb ⊢
        rw [if_neg (by omega), if_pos hb, allocBlock_eq_of_zero hb]
      rw [hcall]
      exact ⟨rfl, hinv⟩
    · obtain ⟨hinv₁, hlive₁⟩ := hinv.initDir hfresh (by omega) hlive hb
      have hcreate := hinv₁.createFile name (by rwa [hbase]) h2 hlt hi32 hlive₁ hfresh
        (by rwa [hbase]) (by rwa [hbase])
      obtain ⟨hret, -, added, hinv₂, hadded⟩ := hcreate
      have hcall : abyssfsMkdir fs [slash] path = (0, (OsArm.createFile
          (OsArm.initDir (allocBlock (OsArm.allocInode fs).2).2 i
            (allocBlock (OsArm.allocInode fs).2).1) [slash] name i).2) := by
        simp only [hi] at hb hret
        simp only [abyssfsMkdir, hi, hname]
        rw [if_neg (by omega), if_neg hb, if_neg (by rw [hret]; decide)]
      rw [hcall]
      refine Or.inr ⟨i, hi32, by rw [hi], h2, hlt, rfl, added, hinv₂, fun hl => ?_⟩
      rw [hadded (by rwa [hbase])]
      exact congrArg (fun r => [r]) (entryRecord_congr hbase)

/-! ## Removing -/

/-- A name that no record has: `abyssfs_unlink` answers -1 and changes nothing. -/
theorem unlink_none (h : RootKept fs rs) {path name : Str}
    (hname : path.dropWhile (· = slash) = name) (hn : NulFree name)
    (hdots : name ≠ dot.name ∧ name ≠ (dotdot false).name) (hne : ∀ r ∈ rs, r.name ≠ name) :
    abyssfsUnlink fs path = (-1, fs) := h.dir.unlink_none hname hn hdots hne

/-- The other entries have other inodes. -/
theorem inode_ne (h : RootKept fs (rs ++ r :: ts)) {q : DirRecord} (hq : q ∈ rs ++ ts) :
    q.inode ≠ r.inode := by
  have hperm : ((rs ++ r :: ts).map DirRecord.inode).Perm
      (r.inode :: (rs ++ ts).map DirRecord.inode) := (List.perm_middle).map DirRecord.inode
  have hfresh : r.inode ∉ (rs ++ ts).map DirRecord.inode :=
    (List.nodup_cons.1 (hperm.nodup_iff.1 h.nodup)).1
  intro heq
  exact hfresh (heq ▸ mem_inodes hq)

/-- **`abyssfs_unlink` takes the first entry of the name out** and its inode out of use. -/
theorem unlink_some (h : RootKept fs (rs ++ r :: ts)) {path : Str}
    (hr : path.dropWhile (· = slash) = r.name)
    (hdots : r.name ≠ dot.name ∧ r.name ≠ (dotdot false).name) (hne : ∀ q ∈ rs, q.name ≠ r.name) :
    (abyssfsUnlink fs path).1 = 0 ∧ RootKept (abyssfsUnlink fs path).2 (rs ++ ts) := by
  have hmem : r ∈ rs ++ r :: ts := by simp
  obtain ⟨h2, hlt, hmode⟩ := h.live r hmem
  have hown : Ownership (releaseInode fs r.inode) :=
    h.own.release (by omega) (by omega) hlt (Or.inl hmode)
  obtain ⟨hdir, -⟩ := h.dir.remove rfl
  have hcall := h.dir.unlink_some hr hdots hne
  have hsub : ∀ q ∈ rs ++ ts, q ∈ rs ++ r :: ts := by
    intro q hq
    rcases List.mem_append.1 hq with hq | hq
    · exact List.mem_append_left _ hq
    · exact List.mem_append_right _ (List.mem_cons_of_mem _ hq)
  have hnodup : ((rs ++ ts).map DirRecord.inode).Nodup :=
    (((List.sublist_cons_self r ts).append_left rs).map DirRecord.inode).nodup h.nodup
  rw [hcall]
  refine ⟨rfl, hown.setBlocks _, hdir, ?_, hnodup, fun q hq => h.noSlash q (hsub q hq)⟩
  intro q hq
  obtain ⟨hq2, hqlt, hqmode⟩ := h.live q (hsub q hq)
  refine ⟨hq2, hqlt, ?_⟩
  exact (releaseInode_frame.2 (h.inode_ne hq)).symm ▸ hqmode

/-! ## Writing -/

/-- **`abyssfs_write` changes no entry**, whatever handle it goes through. -/
theorem write (h : RootKept fs rs) {file : VfsFile} (hfile : file.privateData ≠ 1)
    (buf : List UInt8) : RootKept (abyssfsWrite fs file buf).2 rs := by
  obtain ⟨-, hmode, hblocks⟩ := h.own.write_frame hfile buf
  refine h.frame (h.own.write hfile buf) (fun x _ hx => ?_) fun r hr => ?_
  · rcases hblocks with heq | ⟨b, hb, heq, -⟩
    · rw [heq]
    · exact heq x (Or.inl (dataBlock_disjoint hb hx))
  · rw [hmode]
    exact (h.live r hr).2.2

end RootKept

namespace RootInv

variable {fs fs' : AbyssFs} {rs ts : List DirRecord} {r : DirRecord}

theorem kept (h : RootInv fs rs) : RootKept fs rs where
  own := h.own
  dir := h.dir
  live := h.live
  nodup := h.nodup
  noSlash r hr := by
    obtain ⟨n, hn⟩ := h.names r hr
    rw [← hn]
    exact n.no_slash

theorem of_kept (h : RootKept fs rs) (hnames : ∀ r ∈ rs, ∃ n : EntryName, n.bytes = r.name) :
    RootInv fs rs := ⟨h.own, h.dir, h.live, h.nodup, hnames⟩

/-- Whatever changes neither the root block nor the modes of the entries' inodes
keeps the invariant, if it keeps the ownership. -/
theorem frame (h : RootInv fs rs) (hown : Ownership fs')
    (hblocks : ∀ x, rootAddr ≤ x → x < rootAddr + blockSize → fs'.blocks x = fs.blocks x)
    (hmode : ∀ r ∈ rs, (fs'.inodes r.inode).mode ≠ 0) : RootInv fs' rs :=
  of_kept (h.kept.frame hown hblocks hmode) h.names

/-! ## Listing -/

/-- **The listing of the root** is `"."`, `".."` and the entries. -/
theorem readDir (h : RootInv fs rs) (c : Nat) :
    abyssfsReadDir fs [slash] c =
      some (((dot :: dotdot false :: rs).map DirRecord.toDirent).take c) :=
  h.dir.readDir c

/-! ## Creating -/

/-- The names with one more. -/
theorem names_append (h : RootInv fs rs) (n : EntryName) {i : Nat} (hi : i < maxInodes) :
    ∀ r ∈ rs ++ [n.record i hi], ∃ n : EntryName, n.bytes = r.name := by
  intro q hq
  rcases List.mem_append.1 hq with hq | hq
  · exact h.names q hq
  · rw [List.mem_singleton.1 hq]
    exact ⟨n, rfl⟩

/-- **`create_file` in the root** adds one entry and touches the root block only. -/
theorem createFile (h : RootInv fs rs) (n : EntryName) {i : Nat} (h2 : 2 ≤ i) (hi : i < maxInodes)
    (hlive : (fs.inodes i).mode ≠ 0) (hfresh : i ∉ rs.map DirRecord.inode)
    (hroom : 20 + dirFormat.span rs + recSize n.bytes.length ≤ 4088) :
    (OsArm.createFile fs [slash] n.bytes i).1 = 0 ∧
      (OsArm.createFile fs [slash] n.bytes i).2.inodes = fs.inodes ∧
      RootInv (OsArm.createFile fs [slash] n.bytes i).2 (rs ++ [n.record i hi]) := by
  have hi32 : i < 2 ^ 32 := inode_lt_two_pow hi
  have hmod := n.length_mod
  have hle := n.length_le
  obtain ⟨hret, hinodes, added, hkept, hadded⟩ :=
    h.kept.createFile n.bytes (by rw [n.basename_eq]; exact n.nul_free) h2 hi hi32 hlive
      hfresh (by rw [n.basename_eq, hmod]; omega) (by rwa [n.basename_eq, hmod])
  rw [hadded (by rwa [n.basename_eq]), entryRecord_congr n.basename_eq] at hkept
  exact ⟨hret, hinodes, of_kept hkept (h.names_append n hi)⟩

/-- **`abyssfs_create` in the root.**  Without a free inode nothing happens;
otherwise there is one entry more, and a handle on its inode if `kalloc` has
room for one. -/
theorem create (h : RootInv fs rs) (heap : Heap) (n : EntryName)
    (hroom : 20 + dirFormat.span rs + recSize n.bytes.length ≤ 4088) :
    (OsArm.allocInode fs).1 = 0 ∧ abyssfsCreate heap fs [slash] n.bytes = (none, heap, fs) ∨
      ∃ (i : Nat) (hi : i < maxInodes), (OsArm.allocInode fs).1 = i ∧
        (abyssfsCreate heap fs [slash] n.bytes).1 = (kalloc heap sizeofVfsFile).map (fun _ =>
          { fOps := .abyssfs, privateData := i, fPos := 0 }) ∧
        2 ≤ i ∧ RootInv (abyssfsCreate heap fs [slash] n.bytes).2.2 (rs ++ [n.record i hi]) := by
  have hmod := n.length_mod
  have hle := n.length_le
  rcases h.kept.create heap n.bytes n.basename_strip n.nul_free
    (by rw [hmod]; omega) (by rwa [hmod]) with hnone | ⟨i, hi32, hi, hfile, h2, hlt,
    added, hkept, hadded⟩
  · exact Or.inl hnone
  · rw [hadded hle] at hkept
    exact Or.inr ⟨i, hlt, hi, hfile, h2, of_kept hkept (h.names_append n hlt)⟩

/-- **`abyssfs_mkdir` in the root.**  One entry more, with the inode that was
allocated; or -1 and the same entries, when inodes or blocks have run out. -/
theorem mkdir (h : RootInv fs rs) (n : EntryName)
    (hroom : 20 + dirFormat.span rs + recSize n.bytes.length ≤ 4088) :
    (abyssfsMkdir fs [slash] n.bytes).1 = -1 ∧ RootInv (abyssfsMkdir fs [slash] n.bytes).2 rs ∨
      ∃ (i : Nat) (hi : i < maxInodes), (OsArm.allocInode fs).1 = i ∧ 2 ≤ i ∧
        (abyssfsMkdir fs [slash] n.bytes).1 = 0 ∧
        RootInv (abyssfsMkdir fs [slash] n.bytes).2 (rs ++ [n.record i hi]) := by
  have hmod := n.length_mod
  have hle := n.length_le
  rcases h.kept.mkdir n.bytes n.basename_strip n.nul_free
    (by rw [hmod]; omega) (by rwa [hmod]) with
    ⟨hret, hkept⟩ | ⟨i, hi32, hi, h2, hlt, hret, added, hkept, hadded⟩
  · exact Or.inl ⟨hret, of_kept hkept h.names⟩
  · rw [hadded hle] at hkept
    exact Or.inr ⟨i, hlt, hi, h2, hret, of_kept hkept (h.names_append n hlt)⟩

/-! ## Removing -/

/-- A name that no entry has: `abyssfs_unlink` answers -1 and changes nothing. -/
theorem unlink_none (h : RootInv fs rs) (n : EntryName) (hne : ∀ r ∈ rs, r.name ≠ n.bytes) :
    abyssfsUnlink fs n.bytes = (-1, fs) :=
  h.kept.unlink_none n.dropWhile_slash n.nul_free n.ne_dots hne

/-- **`abyssfs_unlink` takes the first entry of the name out** and its inode out
of use. -/
theorem unlink_some (h : RootInv fs (rs ++ r :: ts)) (n : EntryName) (hr : r.name = n.bytes)
    (hne : ∀ q ∈ rs, q.name ≠ n.bytes) :
    (abyssfsUnlink fs n.bytes).1 = 0 ∧ RootInv (abyssfsUnlink fs n.bytes).2 (rs ++ ts) := by
  have hdots : r.name ≠ dot.name ∧ r.name ≠ (dotdot false).name := by
    rw [hr]
    exact n.ne_dots
  obtain ⟨hret, hkept⟩ := h.kept.unlink_some (n.dropWhile_slash.trans hr.symm) hdots
    (by rw [hr]; exact hne)
  refine ⟨hret, of_kept hkept fun q hq => h.names q ?_⟩
  rcases List.mem_append.1 hq with hq | hq
  · exact List.mem_append_left _ hq
  · exact List.mem_append_right _ (List.mem_cons_of_mem _ hq)

/-! ## Writing -/

/-- **`abyssfs_write`** keeps the names, too. -/
theorem write (h : RootInv fs rs) {file : VfsFile} (hfile : file.privateData ≠ 1)
    (buf : List UInt8) : RootInv (abyssfsWrite fs file buf).2 rs :=
  of_kept (h.kept.write hfile buf) h.names

end RootInv

end OsArm
