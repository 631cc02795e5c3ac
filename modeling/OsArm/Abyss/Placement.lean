import OsArm.Abyss.Runs
import OsArm.Abyss.Tree

/-!
# Where a new entry goes

`abyssfs_create` and `abyssfs_mkdir` take the name of the new entry from their path and
its directory from the process, and `get_inode_by_path` takes both from the path.

* `Placed` — the new entry is where the path says and nowhere else.
* `listing_createFile` — the directory of the process gets a record, whether it has
  room for it or not.
* `placed_iff` — the entry is where the path says if and only if the process is in the
  directory that the path names.
-/

namespace OsArm

/-- What the walk of `abyssfs_read_dir` shows of the directory with inode `e`, with room for
`k` entries. -/
def listing (fs : AbyssFs) (e k : Nat) : List Dirent :=
  readEntries fs.blocks k ((fs.inodes e).blocks * blockSize)

/-- From `fs` to `fs'` the entry `n` with inode `i` has come into the directory `d`, which
`dir` leads to: the path `p` finds it, the listing of `dir` has it as one entry more, and
all other directories show what they did. -/
structure Placed (dirs : Dirs) (fs fs' : AbyssFs) (d : Nat) (dir p : VfsPath) (n : EntryName)
    (i : Nat) : Prop where
  found : getInodeByPath fs' p.bytes = some i
  listed : ∀ k, abyssfsReadDir fs' dir.bytes k =
    some ((listing fs d blockSize ++ [({ inode := i, name := n.bytes } : Dirent)]).take k)
  others : ∀ e, (dirs e).isSome → e ≠ d → ∀ k, listing fs' e k = listing fs e k

/-- A listing with room for no more entries than there are records does not look at what is
behind them. -/
theorem readEntries_of_le {m : ByteMem} {a k : Nat} {rs : List DirRecord}
    (h : dirFormat.Chain m a rs) (hk : k ≤ rs.length) :
    readEntries m k a = (rs.map DirRecord.toDirent).take k := by
  induction rs generalizing a k with
  | nil =>
    rw [List.length_nil, Nat.le_zero] at hk
    rw [hk]
    rfl
  | cons r rs ih =>
    cases k with
    | zero => rfl
    | succ k =>
      obtain ⟨hino, -, hlen, hstr⟩ := h.1
      have hpos := r.size_pos
      have htail : dirFormat.Chain m (a + r.size) rs := h.2
      rw [List.length_cons] at hk
      rw [readEntries, if_pos (by omega), hino, hstr.cstring_eq r.name_nul r.name_lt_walkFuel, hlen,
        ih htail (by omega)]
      rfl

namespace Stores

variable {fs fs₁ : AbyssFs} {dirs : Dirs} {c d i : Nat} {rs : List DirRecord}

/-- What a directory shows. -/
theorem listing_eq (h : Stores fs dirs) (hd : dirs d = some rs) (k : Nat) :
    listing fs d k = (dirents d rs).take k := (h.dir d rs hd).block.readEntries_eq k

/-- A listing of a block has room for all there is. -/
theorem listing_blockSize (h : Stores fs dirs) (hd : dirs d = some rs) :
    listing fs d blockSize = dirents d rs := by
  have hlen := dirFormat.length_le_span rs
  have hfits := (h.dir d rs hd).block.fits
  rw [h.listing_eq hd]
  refine List.take_of_length_le ?_
  simp only [dirents, List.length_cons, List.length_map, blockSize]
  omega

/-- A creation starts with the same listings. -/
theorem listing_congr (h : Stores fs dirs) (h₁ : Stores fs₁ dirs) (e : Nat) (he : (dirs e).isSome)
    (k : Nat) : listing fs₁ e k = listing fs e k := by
  obtain ⟨es, hes⟩ := Option.isSome_iff_exists.1 he
  rw [h₁.listing_eq hes, h.listing_eq hes]

/-- **`create_file` adds a record** to the directory that it works in, whether there is room
for it or not. -/
theorem listing_createFile (h : Stores fs dirs) {cwd name : Str} (hc : createDir fs cwd = some c)
    (hd : dirs c = some rs) (hn : NulFree (basename name)) (hl : (basename name).length ≤ 245)
    (hi32 : i < 2 ^ 32) :
    listing (OsArm.createFile fs cwd name i).2 c (rs.length + 3) =
      dirents c rs ++ [{ inode := i, name := basename name }] := by
  have hblock := (h.dir c rs hd).block
  have hdata := (h.dir c rs hd).data
  have hbig := block_end_lt hdata.2
  have hfits := hblock.fits
  obtain ⟨prev, hprev, hcall⟩ := h.createFile_eq name hc hd i
  obtain ⟨ts, last, last', hchain, hcut, hname, hinode, hexact, hspan, hlast⟩ := hblock.last
  rw [hlast, Option.some.injEq] at hprev
  obtain ⟨m', hm'⟩ : ∃ m', m' = writeEntry (shrinkEntry fs.blocks prev
      ((fs.inodes c).blocks * blockSize + blockSize)) (prev + minRecLen (nameLen fs.blocks prev)) i
        (basename name) := ⟨_, rfl⟩
  have hmin : minRecLen (nameLen fs.blocks prev) = last'.size := by
    rw [← hprev, (RecordFormat.chain_append.1 hchain).2.1.2.1, ← hname, minRecLen_eq hexact.1,
      hexact.2]
  -- the old records are kept, and the new one is stored behind them
  obtain ⟨-, hold, -⟩ := chain_shrink m' hchain hname hinode hexact (by rw [blockSize]; omega) hbig
    hprev.symm fun x hx => by
      rw [hm', writeEntry_outside hl (by omega)]
  have hnew : dirFormat.Stored m' (prev + last'.size)
      (entryRecord (basename name) i hn hl hi32) := by
    rw [hm', hmin]
    exact writeEntry_stored hn hl hi32
  have hall : dirFormat.Chain m' ((fs.inodes c).blocks * blockSize)
      (dirRecords c hblock.ino_lt false rs ++ [entryRecord (basename name) i hn hl hi32]) := by
    rw [hcut]
    refine RecordFormat.chain_append.2 ⟨hold, ?_, trivial⟩
    rw [RecordFormat.span_append, RecordFormat.span_cons, RecordFormat.span_nil, dirFormat_len,
      Nat.add_zero, ← Nat.add_assoc, hprev]
    exact hnew
  have hlength : (dirRecords c hblock.ino_lt false rs ++
      [entryRecord (basename name) i hn hl hi32]).length = rs.length + 3 := by
    simp [dirRecords]
  rw [hcall, listing, ← hm']
  dsimp only
  rw [readEntries_of_le hall (Nat.le_of_eq hlength.symm), ← hlength, List.map_append,
    List.take_of_length_le (by simp)]
  rfl

/-- **One creation**, `create_file` starting from a state `fs₁` in which the directories are
as they were. -/
theorem placed_createFile (h : Stores fs dirs) (h₁ : Stores fs₁ dirs) {cwd dir p : VfsPath}
    {n : EntryName} {name : Str} (hname : basename name = n.bytes) (habs : cwd.Absolute)
    (hcwd : cwd.Leads dirs c) (hc : (dirs c).isSome) (hdir : dir.Leads dirs d)
    (hd : dirs d = some rs) (hp : p.bytes = dir.bytes ++ slash :: n.bytes)
    (hnew : look dirs d n.bytes = none) (hi : i < maxInodes)
    (hroom : 20 + dirFormat.span rs + recSize n.bytes.length ≤ 4088) :
    (OsArm.createFile fs₁ cwd.bytes name i).1 = 0 ∧
      (Placed dirs fs (OsArm.createFile fs₁ cwd.bytes name i).2 d dir p n i ↔ c = d) := by
  have hi32 : i < 2 ^ 32 := inode_lt_two_pow hi
  have hn : NulFree (basename name) := hname ▸ n.nul_free
  have hl : (basename name).length ≤ 245 := hname ▸ n.length_le
  obtain ⟨cs, hcs⟩ := Option.isSome_iff_exists.1 hc
  have hcreate := h₁.createDir_eq habs hcwd
  refine ⟨?_, ?_, ?_⟩
  · obtain ⟨prev, -, hcall⟩ := h₁.createFile_eq name hcreate hcs i
    rw [hcall]
  · intro hplaced
    -- another directory would show one entry more
    by_contra hne
    have hothers := hplaced.others c hc hne (cs.length + 3)
    rw [← h.listing_congr h₁ c hc, h₁.listing_createFile hcreate hcs hn hl hi32,
      h₁.listing_eq hcs] at hothers
    have hlength := congrArg List.length hothers
    simp [dirents] at hlength
  · rintro rfl
    rw [hd, Option.some.injEq] at hcs
    subst hcs
    obtain ⟨-, hinodes, -, hout, hstores⟩ :=
      h₁.createFile name hcreate hd hn hl hi32 hi (by rwa [hname])
    have hentry : (entryRecord (basename name) i hn hl hi32).name = n.bytes := hname
    have hdir' := resolve_update (r := entryRecord (basename name) i hn hl hi32) hd hdir
    refine ⟨?_, ?_, ?_⟩
    · refine hstores.getInodeByPath_path ?_
      unfold VfsPath.Leads
      rw [hp, tokens_append, tokens_name n.nonempty n.no_slash, resolve_append, hdir',
        Option.bind_some, resolve_cons, ← hentry, look_new hd (by rw [hentry]; exact hnew)]
      rfl
    · intro k
      rw [hstores.readDir_path hdir' (Function.update_self c _ dirs), dirents_append,
        h.listing_blockSize hd, ← hname]
      rfl
    · intro e he hne k
      obtain ⟨es, hes⟩ := Option.isSome_iff_exists.1 he
      rw [hstores.listing_eq (by rw [Function.update_of_ne hne]; exact hes), h.listing_eq hes]

/-- `abyssfs_create` succeeds if there are an inode and memory for the handle. -/
theorem create_isSome (h : Stores fs dirs) {heap : Heap} {cwd : VfsPath} (habs : cwd.Absolute)
    (hcwd : cwd.Leads dirs c) (hc : dirs c = some rs) (path : Str)
    (hne : (OsArm.allocInode fs).1 ≠ 0) (hheap : (kalloc heap sizeofVfsFile).isSome) :
    (abyssfsCreate heap fs cwd.bytes path).1.isSome := by
  obtain ⟨h₁, -⟩ := h.allocInode_fresh hne
  obtain ⟨prev, -, hcall⟩ := h₁.createFile_eq (path.dropWhile (· = slash))
    (h₁.createDir_eq habs hcwd) hc (OsArm.allocInode fs).1
  simp only [abyssfsCreate, if_neg hne, hcall, lt_self_iff_false, if_false]
  cases hk : kalloc heap sizeofVfsFile with
  | none =>
    rw [hk] at hheap
    cases hheap
  | some x => rfl

end Stores

/-- The last component of a path that names an entry is its name. -/
theorem basename_strip {dir p : VfsPath} {n : EntryName}
    (hp : p.bytes = dir.bytes ++ slash :: n.bytes) :
    basename (p.bytes.dropWhile (· = slash)) = n.bytes := by
  rw [hp]
  by_cases hnil : dir.bytes.dropWhile (· = slash) = []
  · rw [dropWhile_append_of_nil hnil, dropWhile_slash_cons, n.dropWhile_slash, n.basename_eq]
  · rw [dropWhile_append_of_ne_nil hnil, basename_append _ n.no_slash]

/-- **Where a new entry goes.**  In a state that stores its directories, for a process in the
directory `c` and a path that names a new entry `n` of the directory `d`, which has room:
when `abyssfs_create` or `abyssfs_mkdir` succeeds, the entry is where the path says, and
nowhere else, if and only if `c` is `d`. -/
theorem placed_iff {heap : Heap} {fs : AbyssFs} {dirs : Dirs} {cwd dir p : VfsPath} {n : EntryName}
    {c d : Nat} {rs : List DirRecord} (h : Stores fs dirs) (habs : cwd.Absolute)
    (hcwd : cwd.Leads dirs c) (hc : (dirs c).isSome) (hdir : dir.Leads dirs d)
    (hd : dirs d = some rs) (hp : p.bytes = dir.bytes ++ slash :: n.bytes)
    (hnew : look dirs d n.bytes = none)
    (hroom : 20 + dirFormat.span rs + recSize n.bytes.length ≤ 4088) :
    ((abyssfsCreate heap fs cwd.bytes p.bytes).1.isSome →
      (Placed dirs fs (abyssfsCreate heap fs cwd.bytes p.bytes).2.2 d dir p n (allocInode fs).1 ↔
        c = d)) ∧
    ((abyssfsMkdir fs cwd.bytes p.bytes).1 = 0 →
      (Placed dirs fs (abyssfsMkdir fs cwd.bytes p.bytes).2 d dir p n (allocInode fs).1 ↔
        c = d)) := by
  have hname := basename_strip hp
  refine ⟨?_, ?_⟩
  · intro hsome
    have hne : (allocInode fs).1 ≠ 0 := by
      intro hzero
      simp only [abyssfsCreate, hzero, if_true] at hsome
      cases hsome
    obtain ⟨hstores, hlt, -⟩ := h.allocInode_fresh hne
    obtain ⟨hzero, hiff⟩ := h.placed_createFile hstores hname habs hcwd hc hdir hd hp hnew hlt hroom
    rwa [abyssfsCreate_eq heap hne hzero]
  · intro hret
    have hne : (allocInode fs).1 ≠ 0 := by
      intro hzero
      simp only [abyssfsMkdir, hzero, if_true] at hret
      cases hret
    obtain ⟨hstores, hlt, hnone, -⟩ := h.allocInode_fresh hne
    have hb : (allocBlock (allocInode fs).2).1 ≠ 0 := by
      intro hzero
      simp only [abyssfsMkdir, if_neg hne, hzero, if_true] at hret
      cases hret
    have hinit := hstores.initDir hnone hb
    have hbase : basename (basename (p.bytes.dropWhile (· = slash))) = n.bytes := by
      rw [basename_basename, hname]
    obtain ⟨hzero, hiff⟩ := h.placed_createFile hinit hbase habs hcwd hc hdir hd hp hnew hlt hroom
    rwa [abyssfsMkdir_eq hne hb rfl hzero]

/-! ## A directory in a fresh file system -/

/-- The path `/`. -/
def rootPath : VfsPath where
  bytes := [slash]
  nul_free := by unfold NulFree; decide
  length_lt := by decide

theorem rootPath_absolute : rootPath.Absolute := ⟨[], rfl⟩

/-- The path `/a`. -/
def pathA : VfsPath where
  bytes := str ['/', 'a']
  nul_free := by unfold NulFree; decide
  length_lt := by decide

theorem pathA_absolute : pathA.Absolute := ⟨str ['a'], rfl⟩

/-- The path `/a/a`. -/
def pathAA : VfsPath where
  bytes := str ['/', 'a', '/', 'a']
  nul_free := by unfold NulFree; decide
  length_lt := by decide

/-- The file system after `abyssfs_mkdir`. -/
def mkdirIn (fs : AbyssFs) (cwd path : VfsPath) : AbyssFs :=
  (abyssfsMkdir fs cwd.bytes path.bytes).2

theorem mkdirIn_eq (fs : AbyssFs) (cwd path : VfsPath) :
    mkdirIn fs cwd path = (abyssfsMkdir fs cwd.bytes path.bytes).2 := rfl

/-- A fresh file system with the directory `/a`. -/
def withA : AbyssFs := mkdirIn (abyssfsInit fun _ => 0) rootPath pathA

/-- Its directories: the root, with the entry `a`, and `/a`. -/
def dirsA : Dirs := Dirs.put
    (Function.update (fun d => if d = 1 then some [] else none) 2 (some []))
  1 [] (entryRecord nameA.bytes 2 nameA.nul_free nameA.length_le (by decide))

/-- The first block that it hands out, for its first directory, and that block. -/
theorem allocBlock_init : (allocBlock (allocInode (abyssfsInit fun _ => 0)).2).1 = 10 := rfl

theorem recLen_init : recLen (abyssfsInit fun _ => 0).blocks (10 * blockSize + 256) = 0 := by
  rw [recLen, abyssfsInit_clean (by rw [rootAddr_eq, blockSize]; omega)
    (by rw [blockSize, totalBlocks]; omega)]
  rfl

theorem stores_withA : Stores withA dirsA := by
  have halloc := allocInode_init
  have hblock := allocBlock_init
  have hclean := recLen_init
  have hleads : rootPath.Leads (fun d => if d = 1 then some [] else none) 1 := rfl
  have hname : basename (pathA.bytes.dropWhile (· = slash)) = nameA.bytes := rfl
  have hmkdir := (stores_init fun _ => 0).mkdir pathA.bytes rootPath_absolute hleads
    (if_pos rfl) hname
    nameA.nul_free nameA.length_le (by decide) (by rw [halloc]; decide) (by rw [halloc]; decide)
    (by rw [hblock]; decide) (by rw [hblock]; exact hclean)
  rw [← mkdirIn_eq] at hmkdir
  have hinode : ∀ i (hi32 : i < 2 ^ 32), i = 2 → Stores withA (Dirs.put (Function.update
      (fun d => if d = 1 then some [] else none) i (some [])) 1 []
      (entryRecord nameA.bytes i nameA.nul_free nameA.length_le hi32)) → Stores withA dirsA := by
    rintro i hi32 rfl h
    exact h
  exact hinode _ _ halloc hmkdir

theorem allocInode_withA : (allocInode withA).1 ≠ 0 := by
  have hthree : (withA.inodes 3).mode = 0 := by
    rw [withA, mkdirIn_eq, abyssfsMkdir_of_ne (by decide)]
    rfl
  exact allocInode_of_free (by decide) (by decide) hthree

/-- Whatever its directory, the process succeeds in making `/a/a`. -/
theorem abyssfsCreate_withA {cwd : VfsPath} {c : Nat} {rs : List DirRecord} (habs : cwd.Absolute)
    (hcwd : cwd.Leads dirsA c) (hc : dirsA c = some rs) :
    (abyssfsCreate (Heap.mk 0) withA cwd.bytes pathAA.bytes).1.isSome := by
  have hkalloc : (kalloc (Heap.mk 0) sizeofVfsFile).isSome := by decide
  obtain ⟨heap, hheap⟩ : ∃ heap, heap = Heap.mk 0 := ⟨_, rfl⟩
  rw [← hheap] at hkalloc ⊢
  exact stores_withA.create_isSome habs hcwd hc pathAA.bytes allocInode_withA hkalloc

theorem rootPath_leads : rootPath.Leads dirsA 1 := rfl

theorem pathA_leads : pathA.Leads dirsA 2 := rfl

theorem dirsA_one : dirsA 1 =
    some [entryRecord nameA.bytes 2 nameA.nul_free nameA.length_le (by decide)] := rfl

theorem dirsA_two : dirsA 2 = some [] := rfl

/-- A process in `/` makes `/a/a` in the root, where the listing now shows `a` twice. -/
theorem create_elsewhere :
    Stores withA dirsA ∧ rootPath.Leads dirsA 1 ∧ pathA.Leads dirsA 2 ∧ dirsA 2 = some [] ∧
      look dirsA 2 nameA.bytes = none ∧
      (abyssfsCreate (Heap.mk 0) withA rootPath.bytes pathAA.bytes).1.isSome ∧
      ¬ Placed dirsA withA (abyssfsCreate (Heap.mk 0) withA rootPath.bytes pathAA.bytes).2.2 2 pathA
        pathAA nameA (allocInode withA).1 := by
  have hsome := abyssfsCreate_withA rootPath_absolute rootPath_leads dirsA_one
  refine ⟨stores_withA, rootPath_leads, pathA_leads, dirsA_two, rfl, hsome, ?_⟩
  intro hplaced
  have hlt := (stores_withA.allocInode_fresh allocInode_withA).2.1
  have hname : basename (pathAA.bytes.dropWhile (· = slash)) = nameA.bytes := rfl
  have hafter := stores_withA.create (Heap.mk 0) pathAA.bytes rootPath_absolute rootPath_leads
    dirsA_one hname nameA.nul_free nameA.length_le (by decide) allocInode_withA
    (Nat.lt_trans hlt (by decide))
  have hroot := hplaced.others 1 rfl (by decide) 4
  rw [stores_withA.listing_eq dirsA_one,
    hafter.listing_eq (Function.update_self 1 _ dirsA)] at hroot
  have hlength := congrArg List.length hroot
  simp [dirents] at hlength

/-- A process in `/a` makes `/a/a` where the path says. -/
theorem placed_iff_withA :
    Placed dirsA withA (abyssfsCreate (Heap.mk 0) withA pathA.bytes pathAA.bytes).2.2 2 pathA pathAA
      nameA (allocInode withA).1 :=
  ((placed_iff (p := pathAA) (n := nameA) stores_withA pathA_absolute pathA_leads rfl pathA_leads
    dirsA_two rfl rfl (by decide)).1
      (abyssfsCreate_withA pathA_absolute pathA_leads dirsA_two)).2 rfl

end OsArm
