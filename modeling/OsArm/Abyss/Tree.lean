import OsArm.Abyss.Root

/-!
# Directories of AbyssFS at any depth

What is in each directory, by inode number (`Dirs`), and what a path means there
(`resolve`); a state stores it (`Stores`) when the block of every directory holds its
list and no two directories share a block.

* `Stores.getInodeByPath_eq` — `get_inode_by_path` finds what the path means.
* `Stores.readDir_eq` — `abyssfs_read_dir` lists what is there.
* `Stores.frame`, `Stores.createFile` — what keeps the lists, and that `create_file` adds
  one entry to the list of the directory that it finds.
-/

namespace OsArm

/-! ## Directories and paths -/

/-- The entries of each directory, by its inode; `none` for what is not a directory. -/
abbrev Dirs := Nat → Option (List DirRecord)

/-- What a listing of the directory `d` shows: its own records and its entries. -/
def dirents (d : Nat) (rs : List DirRecord) : List Dirent :=
  { inode := d, name := str ['.'] } :: { inode := 1, name := str ['.', '.'] } ::
    rs.map DirRecord.toDirent

/-- The inode that a name means in the directory `d`. -/
def look (dirs : Dirs) (d : Nat) (name : Str) : Option Nat :=
  (dirs d).bind fun rs => ((dirents d rs).find? (·.name = name)).map Dirent.inode

/-- The inode that the components of a path mean from the directory `d` on. -/
def resolve (dirs : Dirs) (d : Nat) (path : List Str) : Option Nat := path.foldlM (look dirs) d

@[simp] theorem resolve_nil (dirs : Dirs) (d : Nat) : resolve dirs d [] = some d := rfl

theorem resolve_cons (dirs : Dirs) (d : Nat) (t : Str) (ts : List Str) :
    resolve dirs d (t :: ts) = (look dirs d t).bind fun e => resolve dirs e ts := rfl

theorem resolve_append (dirs : Dirs) (d : Nat) (ts us : List Str) :
    resolve dirs d (ts ++ us) = (resolve dirs d ts).bind fun e => resolve dirs e us :=
  List.foldlM_append

/-- The directory `d` with its list in its block. -/
structure DirAt (fs : AbyssFs) (d : Nat) (rs : List DirRecord) : Prop where
  lt : d < maxInodes
  directory : (fs.inodes d).mode &&& 0x4000 ≠ 0
  data : firstDataBlock ≤ (fs.inodes d).blocks ∧ (fs.inodes d).blocks < totalBlocks
  taken : fs.blockBitmap.getLsbD (fs.inodes d).blocks = true
  block : DirBlock fs.blocks ((fs.inodes d).blocks * blockSize) d rs
  /-- Entries refer to inodes of the table. -/
  inode_lt : ∀ r ∈ rs, r.inode < maxInodes

/-- **The state stores the directories**, each in a block of its own, the root in the root
block. -/
structure Stores (fs : AbyssFs) (dirs : Dirs) : Prop where
  root : (dirs 1).isSome ∧ (fs.inodes 1).blocks = rootBlock
  dir : ∀ d rs, dirs d = some rs → DirAt fs d rs
  apart : ∀ d d', d ≠ d' → (dirs d).isSome → (dirs d').isSome →
    (fs.inodes d).blocks ≠ (fs.inodes d').blocks

/-! ## Walks -/

/-- A walk reads the inode of the first record of the name. -/
theorem findEntry_word {m : ByteMem} {a fuel : Nat} {rs : List DirRecord} {name : Str}
    (h : dirFormat.Chain m a rs) (hend : recLen m (a + dirFormat.span rs) = 0) (hn : NulFree name)
    (hf : rs.length < fuel) :
    (findEntry m name fuel a).map m.word = (rs.find? (·.name = name)).map DirRecord.inode := by
  induction rs generalizing a fuel with
  | nil =>
    rw [findEntry_none h hend hn (by simp) hf]
    rfl
  | cons r rs ih =>
    obtain ⟨f, rfl⟩ : ∃ f, fuel = f + 1 := ⟨fuel - 1, by simp at hf; omega⟩
    have hlen : recLen m a = r.size := h.1.2.2.1
    have hpos := r.size_pos
    rw [findEntry, if_pos (by omega)]
    by_cases hr : r.name = name
    · rw [if_pos ((strcmp_stored h.1 hn).2 hr), List.find?_cons_of_pos (by simpa using hr)]
      exact congrArg some h.1.1
    · rw [if_neg fun h0 => hr ((strcmp_stored h.1 hn).1 h0),
        List.find?_cons_of_neg (by simpa using hr), hlen]
      refine ih h.2 ?_ (by simp at hf; omega)
      rwa [RecordFormat.span_cons, ← Nat.add_assoc] at hend

/-- The names of a listing are those of the records. -/
theorem find_toDirent (rs : List DirRecord) (name : Str) :
    ((rs.map DirRecord.toDirent).find? (·.name = name)).map Dirent.inode =
      (rs.find? (·.name = name)).map DirRecord.inode := by
  rw [List.find?_map, Option.map_map]
  rfl

theorem DirBlock.findEntry_word {m : ByteMem} {addr ino : Nat} {rs : List DirRecord} {name : Str}
    (h : DirBlock m addr ino rs) (hn : NulFree name) :
    (findEntry m name walkFuel addr).map m.word =
      ((dirents ino rs).find? (·.name = name)).map Dirent.inode := by
  obtain ⟨fresh, -, hchain, hend⟩ := h.chain
  rw [OsArm.findEntry_word hchain hend hn (h.length_lt_walkFuel fresh), ← find_toDirent]
  rfl

namespace Stores

variable {fs fs' : AbyssFs} {dirs : Dirs} {d e : Nat} {rs : List DirRecord} {t save rest : Str}

/-- A directory's block is one of the data blocks. -/
theorem getBlock_eq (h : Stores fs dirs) (hd : dirs d = some rs) :
    (fs.inodes d).blocks ≠ 0 ∧
      getBlock (fs.inodes d).blocks = some ((fs.inodes d).blocks * blockSize) := by
  have hdata := (h.dir d rs hd).data
  have hpos : 0 < firstDataBlock := by decide
  exact ⟨by omega, if_neg (by omega)⟩

/-- What a name means is an inode of the table. -/
theorem look_lt (h : Stores fs dirs) (hlook : look dirs d t = some e) : e < maxInodes := by
  unfold look at hlook
  obtain ⟨rs, hd, hlook⟩ := Option.bind_eq_some_iff.1 hlook
  obtain ⟨x, hx, rfl⟩ := Option.map_eq_some_iff.1 hlook
  rcases List.mem_cons.1 (List.mem_of_find?_eq_some hx) with rfl | hx
  · exact (h.dir d rs hd).lt
  · rcases List.mem_cons.1 hx with rfl | hx
    · exact (by decide : 1 < maxInodes)
    · obtain ⟨r, hr, rfl⟩ := List.mem_map.1 hx
      exact (h.dir d rs hd).inode_lt r hr

/-- **One component** of a path, from a directory on. -/
theorem walkPath_step (h : Stores fs dirs) {fuel : Nat} (hd : dirs d = some rs)
    (htok : strtokR save [slash] = some (t, rest)) (hn : NulFree t) :
    walkPath fs (fuel + 1) d save = (look dirs d t).bind fun e => walkPath fs fuel e rest := by
  obtain ⟨hne, hblock⟩ := h.getBlock_eq hd
  have hword := (h.dir d rs hd).block.findEntry_word hn
  have hlook : look dirs d t =
      (findEntry fs.blocks t walkFuel ((fs.inodes d).blocks * blockSize)).map fs.blocks.word := by
    rw [hword, look, hd]
    rfl
  rw [walkPath, htok]
  simp only [if_neg hne, hblock, Option.bind_some, hlook]
  cases hfind : findEntry fs.blocks t walkFuel ((fs.inodes d).blocks * blockSize) with
  | none => rfl
  | some dir =>
    rw [hfind, Option.map_some] at hlook
    have hget : getInode fs (fs.blocks.word dir) = some (fs.inodes (fs.blocks.word dir)) :=
      getInode_of_lt (h.look_lt hlook)
    simp only [hget, Option.map_some, Option.bind_some]

/-- **A path through directories** leads where its components lead. -/
theorem walkPath_eq (h : Stores fs dirs) {fuel : Nat} (hn : NulFree save) (hf : save.length < fuel)
    (hres : resolve dirs d (tokens save) = some e) : walkPath fs fuel d save = some e := by
  induction fuel generalizing d save with
  | zero => omega
  | succ fuel ih =>
    cases htok : strtokR save [slash] with
    | none =>
      rw [tokens_of_strtokR_none htok] at hres
      rw [walkPath, htok]
      exact hres
    | some x =>
      obtain ⟨t, rest⟩ := x
      obtain ⟨htokens, hlen, ht, hrest⟩ := tokens_of_strtokR_some htok
      rw [htokens, resolve_cons] at hres
      obtain ⟨d', hlook, hres⟩ := Option.bind_eq_some_iff.1 hres
      obtain ⟨rs, hd, -⟩ := Option.bind_eq_some_iff.1 hlook
      rw [h.walkPath_step hd htok fun hmem => hn (ht 0 hmem), hlook]
      exact ih (fun hmem => hn (hrest 0 hmem)) (by omega) hres

/-- A path ends where a directory has no such name. -/
theorem walkPath_none (h : Stores fs dirs) {fuel : Nat} {ts us : List Str} (hn : NulFree save)
    (hf : save.length < fuel) (htokens : tokens save = ts ++ t :: us)
    (hres : resolve dirs d ts = some e) (he : dirs e = some rs) (hlook : look dirs e t = none) :
    walkPath fs fuel d save = none := by
  induction fuel generalizing d save ts with
  | zero => omega
  | succ fuel ih =>
    cases htok : strtokR save [slash] with
    | none =>
      rw [tokens_of_strtokR_none htok] at htokens
      simp at htokens
    | some x =>
      obtain ⟨t', rest⟩ := x
      obtain ⟨hcut, hlen, ht, hrest⟩ := tokens_of_strtokR_some htok
      rw [hcut] at htokens
      cases ts with
      | nil =>
        rw [List.nil_append, List.cons.injEq] at htokens
        rw [resolve_nil, Option.some.injEq] at hres
        subst hres
        rw [h.walkPath_step he htok fun hmem => hn (ht 0 hmem), htokens.1, hlook]
        rfl
      | cons t₀ ts =>
        rw [List.cons_append, List.cons.injEq] at htokens
        rw [resolve_cons] at hres
        obtain ⟨d', hd', hres⟩ := Option.bind_eq_some_iff.1 hres
        obtain ⟨ds, hds, -⟩ := Option.bind_eq_some_iff.1 hd'
        rw [h.walkPath_step hds htok fun hmem => hn (ht 0 hmem), htokens.1, hd']
        exact ih (fun hmem => hn (hrest 0 hmem)) (by omega) htokens.2 hres

/-- `get_inode_by_path` answers `NULL` for it. -/
theorem getInodeByPath_none (h : Stores fs dirs) {path : Str} {ts us : List Str} (hn : NulFree path)
    (hlen : path.length ≤ 255) (htokens : tokens path = ts ++ t :: us)
    (hres : resolve dirs 1 ts = some e) (he : dirs e = some rs) (hlook : look dirs e t = none) :
    getInodeByPath fs path = none := by
  have hsub := List.dropWhile_sublist (fun c => decide (c = slash)) (l := path)
  have hlen' := hsub.length_le
  rw [← tokens_dropWhile] at htokens
  unfold getInodeByPath
  dsimp only
  split
  · next hnil =>
    rw [hnil] at htokens
    simp at htokens
  · rw [List.take_of_length_le (by omega)]
    exact h.walkPath_none (fun hmem => hn (hsub.mem hmem)) (by omega) htokens hres he hlook

/-- **`get_inode_by_path`** finds what a path through directories means. -/
theorem getInodeByPath_eq (h : Stores fs dirs) {path : Str} (hn : NulFree path)
    (hlen : path.length ≤ 255) (hres : resolve dirs 1 (tokens path) = some e) :
    getInodeByPath fs path = some e := by
  have hsub := List.dropWhile_sublist (fun c => decide (c = slash)) (l := path)
  have hlen' := hsub.length_le
  rw [← tokens_dropWhile] at hres
  unfold getInodeByPath
  dsimp only
  split
  · next hnil =>
    rw [hnil] at hres
    exact hres
  · rw [List.take_of_length_le (by omega)]
    exact h.walkPath_eq (fun hmem => hn (hsub.mem hmem)) (by omega) hres

/-- **`abyssfs_read_dir`** lists what is in the directory that the path means. -/
theorem readDir_eq (h : Stores fs dirs) {path : Str} (hn : NulFree path) (hlen : path.length ≤ 255)
    (hres : resolve dirs 1 (tokens path) = some d) (hd : dirs d = some rs) (c : Nat) :
    abyssfsReadDir fs path c = some ((dirents d rs).take c) := by
  have hsub := List.dropWhile_sublist (fun c => decide (c = slash)) (l := path)
  have hlen' := hsub.length_le
  have hblock := (h.getBlock_eq hd).2
  have hread : readEntries fs.blocks c ((fs.inodes d).blocks * blockSize) = (dirents d rs).take c :=
    (h.dir d rs hd).block.readEntries_eq c
  have hstart : (if path.dropWhile (· = slash) = [] then some rootBlock
      else (getInodeByPath fs (path.dropWhile (· = slash))).map fun n => (fs.inodes n).blocks) =
        some (fs.inodes d).blocks := by
    by_cases hnil : path.dropWhile (· = slash) = []
    · rw [← tokens_dropWhile, hnil, tokens_nil, resolve_nil, Option.some.injEq] at hres
      rw [if_pos hnil, ← hres, h.root.2]
    · rw [if_neg hnil, h.getInodeByPath_eq (fun hmem => hn (hsub.mem hmem)) (by omega)
        (by rw [tokens_dropWhile]; exact hres)]
      rfl
  unfold abyssfsReadDir
  dsimp only
  rw [hstart, Option.bind_some, hblock]
  exact congrArg some hread

/-! ## What keeps the directories -/

/-- Whatever leaves the inodes and the blocks of the directories alone, and frees none of
these blocks, keeps them. -/
theorem frame (h : Stores fs dirs)
    (hinodes : ∀ d, (dirs d).isSome → fs'.inodes d = fs.inodes d)
    (hbits : ∀ d, (dirs d).isSome → fs.blockBitmap.getLsbD (fs.inodes d).blocks = true →
      fs'.blockBitmap.getLsbD (fs.inodes d).blocks = true)
    (hblocks : ∀ d, (dirs d).isSome → ∀ x, (fs.inodes d).blocks * blockSize ≤ x →
      x < (fs.inodes d).blocks * blockSize + blockSize → fs'.blocks x = fs.blocks x) :
    Stores fs' dirs where
  root := by
    rw [hinodes 1 h.root.1]
    exact h.root
  dir := by
    intro d rs hd
    have hsome : (dirs d).isSome := by rw [hd]; rfl
    obtain ⟨hlt, hdir, hdata, htaken, hblock, hentries⟩ := h.dir d rs hd
    refine ⟨hlt, ?_, ?_, ?_, ?_, hentries⟩
    · rwa [hinodes d hsome]
    · rwa [hinodes d hsome]
    · rw [hinodes d hsome]
      exact hbits d hsome htaken
    · rw [hinodes d hsome]
      exact hblock.frame (hblocks d hsome)
  apart := by
    intro d d' hne hd hd'
    rw [hinodes d hd, hinodes d' hd']
    exact h.apart d d' hne hd hd'

/-- Two blocks do not meet. -/
theorem blocks_disjoint {b b' x y : Nat} (hne : b ≠ b') (hx : b * blockSize ≤ x)
    (hx' : x < b * blockSize + blockSize) (hy : b' * blockSize ≤ y)
    (hy' : y < b' * blockSize + blockSize) : x ≠ y := by
  rintro rfl
  rcases Nat.lt_or_gt_of_ne hne with hlt | hlt
  · have := Nat.mul_le_mul_right blockSize (Nat.succ_le_of_lt hlt)
    rw [Nat.succ_mul] at this
    omega
  · have := Nat.mul_le_mul_right blockSize (Nat.succ_le_of_lt hlt)
    rw [Nat.succ_mul] at this
    omega

/-- `alloc_inode` hands out no directory's inode. -/
theorem allocInode (h : Stores fs dirs) :
    OsArm.allocInode fs = (0, fs) ∨ ∃ i, OsArm.allocInode fs = (i, fs.setInode i
      { Inode.zero with mode := 0x1FF }) ∧ 1 ≤ i ∧ i < maxInodes ∧ dirs i = none ∧
      Stores (OsArm.allocInode fs).2 dirs := by
  rcases allocInode_spec fs with hnone | ⟨i, hi, hpos, hlt, hmode⟩
  · exact Or.inl hnone
  · have hnone : dirs i = none := by
      cases hd : dirs i with
      | none => rfl
      | some rs =>
        have hdir := (h.dir i rs hd).directory
        rw [hmode] at hdir
        exact absurd rfl hdir
    refine Or.inr ⟨i, hi, hpos, hlt, hnone, ?_⟩
    rw [hi]
    refine h.frame (fun d hd => setInode_of_ne ?_) (fun _ _ hbit => hbit) (fun _ _ _ _ _ => rfl)
    rintro rfl
    rw [hnone] at hd
    cases hd

/-- `abyssfs_mkdir` builds a directory block away from those of the directories. -/
theorem initDir (h : Stores fs dirs) {i : Nat} (hi : dirs i = none) (hb : (allocBlock fs).1 ≠ 0) :
    Stores (OsArm.initDir (allocBlock fs).2 i (allocBlock fs).1) dirs := by
  rcases allocBlock_spec fs with hnone | ⟨b, hb', -, hlt, hfree, hblocks, hinodes, hbitmap⟩
  · rw [hnone] at hb
    exact absurd rfl hb
  rw [hb']
  have hne : ∀ d, (dirs d).isSome → d ≠ i := by
    rintro d hd rfl
    rw [hi] at hd
    cases hd
  refine h.frame (fun d hd => ?_) (fun d hd hbit => ?_) (fun d hd x hx hx' => ?_)
  · simp only [OsArm.initDir]
    rw [setInode_of_ne (hne d hd), hinodes]
  · simp only [OsArm.initDir, setInode_bitmap, hbitmap]
    rw [BitSet.getLsbD_or_bit (by rwa [totalBlocks] at hlt), hbit, Bool.true_or]
  · obtain ⟨rs, hrs⟩ := Option.isSome_iff_exists.1 hd
    have htaken := (h.dir d rs hrs).taken
    have hbd : (fs.inodes d).blocks ≠ b := by
      rintro rfl
      rw [hfree] at htaken
      cases htaken
    simp only [OsArm.initDir, setInode_blocks]
    rw [putDots_outside, hblocks]
    have hsize : blockSize = 4096 := rfl
    by_contra hin
    exact blocks_disjoint hbd hx hx' (y := x) (by omega) (by omega) rfl

end Stores

/-! ## Paths of the kernel -/

/-- A path as the kernel's buffers hold it: a C string of less than `VFS_MAX_PATH` bytes. -/
structure VfsPath where
  bytes : Str
  nul_free : NulFree bytes
  length_lt : bytes.length < vfsMaxPath

namespace VfsPath

/-- The path leads to `e`, through directories. -/
def Leads (dirs : Dirs) (p : VfsPath) (e : Nat) : Prop := resolve dirs 1 (tokens p.bytes) = some e

/-- It is absolute. -/
def Absolute (p : VfsPath) : Prop := ∃ rest, p.bytes = slash :: rest

end VfsPath

namespace Stores

variable {fs fs' : AbyssFs} {dirs : Dirs} {c d e i : Nat} {rs : List DirRecord}

theorem getInodeByPath_path (h : Stores fs dirs) {p : VfsPath} (hp : p.Leads dirs e) :
    getInodeByPath fs p.bytes = some e :=
  h.getInodeByPath_eq p.nul_free (Nat.le_of_lt_succ p.length_lt) hp

theorem readDir_path (h : Stores fs dirs) {p : VfsPath} (hp : p.Leads dirs d)
    (hd : dirs d = some rs) (k : Nat) :
    abyssfsReadDir fs p.bytes k = some ((dirents d rs).take k) :=
  h.readDir_eq p.nul_free (Nat.le_of_lt_succ p.length_lt) hp hd k

/-- The directory that `create_file` works in is the one that the process is in. -/
theorem createDir_eq (h : Stores fs dirs) {cwd : VfsPath} (habs : cwd.Absolute)
    (hc : cwd.Leads dirs c) : createDir fs cwd.bytes = some c := by
  obtain ⟨rest, hrest⟩ := habs
  have hlen := cwd.length_lt
  unfold vfsMaxPath at hlen
  have hnul := cwd.nul_free
  unfold VfsPath.Leads at hc
  rw [hrest] at hlen hnul hc ⊢
  rw [tokens_slash] at hc
  unfold createDir
  split
  · rw [List.drop_one, List.tail_cons]
    exact h.getInodeByPath_eq (fun hmem => hnul (List.mem_cons_of_mem _ hmem))
      (by simp only [List.length_cons] at hlen; omega) hc
  · next hroot =>
    have hnil : rest = [] := by simpa using hroot
    rw [hnil] at hc
    exact hc

/-- Where `create_file` puts its record. -/
theorem createFile_eq (h : Stores fs dirs) {cwd : Str} (name : Str) (hc : createDir fs cwd = some c)
    (hd : dirs c = some rs) (i : Nat) :
    ∃ prev, (lastEntry fs.blocks ((fs.inodes c).blocks * blockSize + blockSize) blockSize
        ((fs.inodes c).blocks * blockSize) none).2 = some prev ∧
      OsArm.createFile fs cwd name i = (0, { fs with
        blocks := writeEntry (shrinkEntry fs.blocks prev
            ((fs.inodes c).blocks * blockSize + blockSize))
          (prev + minRecLen (nameLen fs.blocks prev)) i (basename name) }) := by
  obtain ⟨ts, last, last', -, -, -, -, -, -, hprev⟩ := (h.dir c rs hd).block.last
  have hne := (h.getBlock_eq hd).1
  refine ⟨_, hprev, ?_⟩
  unfold OsArm.createFile
  simp only [hc, hne, false_and, if_false, hprev]

/-- **`create_file`** adds one entry to the directory that it works in, when there is room,
and changes nothing else. -/
theorem createFile (h : Stores fs dirs) {cwd : Str} (name : Str) (hc : createDir fs cwd = some c)
    (hd : dirs c = some rs) (hn : NulFree (basename name)) (hl : (basename name).length ≤ 245)
    (hi32 : i < 2 ^ 32) (hi : i < maxInodes)
    (hroom : 20 + dirFormat.span rs + recSize (basename name).length ≤ 4088) :
    (OsArm.createFile fs cwd name i).1 = 0 ∧
      (OsArm.createFile fs cwd name i).2.inodes = fs.inodes ∧
      (OsArm.createFile fs cwd name i).2.blockBitmap = fs.blockBitmap ∧
      (∀ x, x < (fs.inodes c).blocks * blockSize ∨
        (fs.inodes c).blocks * blockSize + blockSize ≤ x →
        (OsArm.createFile fs cwd name i).2.blocks x = fs.blocks x) ∧
      Stores (OsArm.createFile fs cwd name i).2 (Function.update dirs c
        (some (rs ++ [entryRecord (basename name) i hn hl hi32]))) := by
  have hdata := (h.dir c rs hd).data
  have hbig := block_end_lt hdata.2
  obtain ⟨prev, hprev, hcall⟩ := h.createFile_eq name hc hd i
  obtain ⟨prev', hprev', hspec⟩ := (h.dir c rs hd).block.create hbig hn hl hi32 hroom
  rw [hprev, Option.some.injEq] at hprev'
  rw [← hprev'] at hspec
  obtain ⟨hblock, hout⟩ := hspec _ rfl
  rw [hcall]
  refine ⟨rfl, rfl, rfl, hout, ?_, ?_, ?_⟩
  · refine ⟨?_, h.root.2⟩
    by_cases h1 : (1 : Nat) = c
    · rw [h1, Function.update_self]
      rfl
    · rw [Function.update_of_ne h1]
      exact h.root.1
  · intro e es he
    by_cases hec : e = c
    · subst hec
      rw [Function.update_self, Option.some.injEq] at he
      subst he
      obtain ⟨hlt, hdir, hdata, htaken, -, hentries⟩ := h.dir e rs hd
      refine ⟨hlt, hdir, hdata, htaken, hblock, ?_⟩
      intro r hr
      rcases List.mem_append.1 hr with hr | hr
      · exact hentries r hr
      · rw [List.mem_singleton.1 hr]
        exact hi
    · rw [Function.update_of_ne hec] at he
      obtain ⟨hlt, hdir, hdata, htaken, hblock, hentries⟩ := h.dir e es he
      have hapart := h.apart e c hec (by rw [he]; rfl) (by rw [hd]; rfl)
      refine ⟨hlt, hdir, hdata, htaken, hblock.frame fun x hx hx' => hout x ?_, hentries⟩
      by_contra hin
      exact blocks_disjoint hapart hx hx' (y := x) (by omega) (by omega) rfl
  · intro e e' hne he he'
    have hsome : ∀ k, (Function.update dirs c
        (some (rs ++ [entryRecord (basename name) i hn hl hi32])) k).isSome → (dirs k).isSome := by
      intro k hk
      by_cases hkc : k = c
      · rw [hkc, hd]
        rfl
      · rwa [Function.update_of_ne hkc] at hk
    exact h.apart e e' hne (hsome e he) (hsome e' he')

end Stores

/-! ## Creating -/

/-- The directories with the new entry `r` in `c`. -/
def Dirs.put (dirs : Dirs) (c : Nat) (rs : List DirRecord) (r : DirRecord) : Dirs :=
  Function.update dirs c (some (rs ++ [r]))

namespace Stores

variable {fs fs' : AbyssFs} {dirs : Dirs} {c i : Nat} {rs : List DirRecord}

/-- One more directory, in a block of its own. -/
theorem addDir (h : Stores fs dirs) (hi : dirs i = none) (hdir : DirAt fs i [])
    (hapart : ∀ d, (dirs d).isSome → (fs.inodes d).blocks ≠ (fs.inodes i).blocks) :
    Stores fs (Function.update dirs i (some [])) where
  root := by
    refine ⟨?_, h.root.2⟩
    have h1 : (1 : Nat) ≠ i := by
      rintro rfl
      have hroot := h.root.1
      rw [hi] at hroot
      cases hroot
    rw [Function.update_of_ne h1]
    exact h.root.1
  dir := by
    intro d ds hd
    by_cases hdi : d = i
    · subst hdi
      rw [Function.update_self, Option.some.injEq] at hd
      subst hd
      exact hdir
    · rw [Function.update_of_ne hdi] at hd
      exact h.dir d ds hd
  apart := by
    intro d d' hne hd hd'
    by_cases hdi : d = i
    · subst hdi
      rw [Function.update_of_ne (Ne.symm hne)] at hd'
      exact Ne.symm (hapart d' hd')
    · rw [Function.update_of_ne hdi] at hd
      by_cases hdi' : d' = i
      · subst hdi'
        exact hapart d hd
      · rw [Function.update_of_ne hdi'] at hd'
        exact h.apart d d' hne hd hd'

/-- **`abyssfs_mkdir` builds a directory** without entries in a fresh block, if the byte of the
block that is read as the length behind `".."` is 0. -/
theorem initDir_dir (h : Stores fs dirs) (hi : dirs i = none) (hlt : i < maxInodes)
    (hmode : (fs.inodes i).mode = 0x1FF) (hb : (allocBlock fs).1 ≠ 0)
    (hclean : recLen fs.blocks ((allocBlock fs).1 * blockSize + 256) = 0) :
    Stores (OsArm.initDir (allocBlock fs).2 i (allocBlock fs).1)
      (Function.update dirs i (some [])) := by
  have hstores := h.initDir hi hb
  rcases allocBlock_spec fs with hnone | ⟨b, hb', hfirst, hlt64, hfree, hblocks, hinodes, hbitmap⟩
  · rw [hnone] at hb
    exact absurd rfl hb
  rw [hb'] at hclean hstores ⊢
  have hnode : (OsArm.initDir (allocBlock fs).2 i b).inodes i =
      { mode := (fs.inodes i).mode ||| 0x4000, size := blockSize, blocks := b } := by
    simp only [OsArm.initDir, setInode_self, hinodes]
  have hi32 : i < 2 ^ 32 := inode_lt_two_pow hlt
  refine hstores.addDir hi ⟨hlt, ?_, ?_, ?_, ?_, by simp⟩ fun d hd => ?_
  · rw [hnode, hmode]
    exact (by decide : (0x1FF ||| 0x4000 : BitVec 32) &&& 0x4000 ≠ 0)
  · rw [hnode]
    exact ⟨hfirst, hlt64⟩
  · rw [hnode]
    simp only [OsArm.initDir, setInode_bitmap, hbitmap]
    rw [BitSet.getLsbD_or_bit (by rwa [totalBlocks] at hlt64)]
    simp
  · rw [hnode]
    simp only [OsArm.initDir, setInode_blocks, hblocks]
    exact dirBlock_putDots hi32 hclean
  · rw [hnode]
    obtain ⟨rs, hrs⟩ := Option.isSome_iff_exists.1 hd
    have htaken := (h.dir d rs hrs).taken
    have hne : d ≠ i := by
      rintro rfl
      rw [hi] at hd
      cases hd
    have hsame : (OsArm.initDir (allocBlock fs).2 i b).inodes d = fs.inodes d := by
      simp only [OsArm.initDir]
      rw [setInode_of_ne hne, hinodes]
    rw [hsame]
    rintro hbd
    rw [hbd, hfree] at htaken
    cases htaken

/-- A creation starts with a fresh inode. -/
theorem allocInode_fresh (h : Stores fs dirs) (hne : (OsArm.allocInode fs).1 ≠ 0) :
    Stores (OsArm.allocInode fs).2 dirs ∧ (OsArm.allocInode fs).1 < maxInodes ∧
      dirs (OsArm.allocInode fs).1 = none ∧
      ((OsArm.allocInode fs).2.inodes (OsArm.allocInode fs).1).mode = 0x1FF ∧
      (OsArm.allocInode fs).2.blocks = fs.blocks := by
  rcases h.allocInode with hnone | ⟨i, hi, -, hlt, hnone, hstores⟩
  · rw [hnone] at hne
    exact absurd rfl hne
  · refine ⟨hstores, by rw [hi]; exact hlt, by rw [hi]; exact hnone, ?_, by rw [hi]; rfl⟩
    rw [hi, setInode_self]

/-- **`abyssfs_create`** with a fresh inode adds an entry to the directory of the process. -/
theorem create (h : Stores fs dirs) (heap : Heap) {cwd : VfsPath} (path : Str) {name : Str}
    (habs : cwd.Absolute) (hcwd : cwd.Leads dirs c) (hd : dirs c = some rs)
    (hname : basename (path.dropWhile (· = slash)) = name) (hn : NulFree name)
    (hl : name.length ≤ 245) (hroom : 20 + dirFormat.span rs + recSize name.length ≤ 4088)
    (hne : (OsArm.allocInode fs).1 ≠ 0) (hi32 : (OsArm.allocInode fs).1 < 2 ^ 32) :
    Stores (abyssfsCreate heap fs cwd.bytes path).2.2
      (dirs.put c rs (entryRecord name (OsArm.allocInode fs).1 hn hl hi32)) := by
  subst hname
  obtain ⟨h₁, hlt, -, -, -⟩ := h.allocInode_fresh hne
  obtain ⟨hret, -, -, -, hstores⟩ :=
    h₁.createFile _ (h₁.createDir_eq habs hcwd) hd hn hl hi32 hlt hroom
  rw [abyssfsCreate_eq heap hne hret]
  exact hstores

/-- **`abyssfs_mkdir`** with a fresh inode and a fresh block adds an entry to the directory of
the process, and a directory without entries. -/
theorem mkdir (h : Stores fs dirs) {cwd : VfsPath} (path : Str) {name : Str}
    (habs : cwd.Absolute) (hcwd : cwd.Leads dirs c) (hd : dirs c = some rs)
    (hname : basename (path.dropWhile (· = slash)) = name) (hn : NulFree name)
    (hl : name.length ≤ 245) (hroom : 20 + dirFormat.span rs + recSize name.length ≤ 4088)
    (hne : (OsArm.allocInode fs).1 ≠ 0) (hi32 : (OsArm.allocInode fs).1 < 2 ^ 32)
    (hb : (allocBlock (OsArm.allocInode fs).2).1 ≠ 0)
    (hclean : recLen fs.blocks ((allocBlock (OsArm.allocInode fs).2).1 * blockSize + 256) = 0) :
    Stores (abyssfsMkdir fs cwd.bytes path).2
      (Dirs.put (Function.update dirs (OsArm.allocInode fs).1 (some [])) c rs
        (entryRecord name (OsArm.allocInode fs).1 hn hl hi32)) := by
  have hbase : basename name = name := by rw [← hname, basename_basename]
  obtain ⟨h₁, hlt, hnone, hmode, hblocks⟩ := h.allocInode_fresh hne
  rw [← hblocks] at hclean
  have h₂ := h₁.initDir hnone hb
  have h₃ := h₁.initDir_dir hnone hlt hmode hb hclean
  have hci : c ≠ (OsArm.allocInode fs).1 := by
    rintro rfl
    rw [hnone] at hd
    cases hd
  obtain ⟨hret, -, -, -, hstores⟩ :=
    h₃.createFile name (h₂.createDir_eq habs hcwd)
      (by rw [Function.update_of_ne hci]; exact hd) (by rwa [hbase]) (by rwa [hbase]) hi32 hlt
      (by rwa [hbase])
  rw [abyssfsMkdir_eq hne hb hname hret]
  rw [entryRecord_congr hbase] at hstores
  exact hstores

end Stores

/-- The root, when it is the only directory. -/
theorem stores_init (m : ByteMem) :
    Stores (abyssfsInit m) (fun d => if d = 1 then some [] else none) := by
  have hinv := (rootInv_init m).kept
  have hroot : ∀ {d} {rs : List DirRecord}, (if d = 1 then some [] else none) = some rs →
      d = 1 ∧ rs = [] := by
    intro d rs hd
    split at hd
    · next h1 => exact ⟨h1, (Option.some.inj hd).symm⟩
    · cases hd
  refine ⟨⟨rfl, hinv.own.root.2⟩, ?_, ?_⟩
  · intro d rs hd
    obtain ⟨rfl, rfl⟩ := hroot hd
    refine ⟨by decide, ?_, ?_, ?_, ?_, by simp⟩
    · rw [hinv.own.root.1]
      decide
    · rw [hinv.own.root.2]
      decide
    · rw [hinv.own.root.2]
      exact hinv.own.reserved _ (Nat.le_refl _)
    · rw [hinv.own.root.2]
      exact hinv.dir.block
  · intro d d' hne hd hd'
    obtain ⟨rs, hrs⟩ := Option.isSome_iff_exists.1 hd
    obtain ⟨rs', hrs'⟩ := Option.isSome_iff_exists.1 hd'
    exact absurd ((hroot hrs).1.trans (hroot hrs').1.symm) hne

/-! ## One entry more -/

section Append

variable {dirs : Dirs} {c d e : Nat} {rs : List DirRecord} {r : DirRecord} {t : Str} {ts : List Str}

theorem dirents_append : dirents c (rs ++ [r]) = dirents c rs ++ [r.toDirent] := by
  simp [dirents]

/-- What a name means it still means. -/
theorem look_append (hd : dirs c = some rs) (h : look dirs d t = some e) :
    look (Function.update dirs c (some (rs ++ [r]))) d t = some e := by
  by_cases hdc : d = c
  · subst hdc
    unfold look at h ⊢
    rw [hd, Option.bind_some] at h
    obtain ⟨x, hx, rfl⟩ := Option.map_eq_some_iff.1 h
    rw [Function.update_self, Option.bind_some, dirents_append, List.find?_append, hx]
    rfl
  · unfold look at h ⊢
    rwa [Function.update_of_ne hdc]

/-- What a path means it still means. -/
theorem resolve_update (hd : dirs c = some rs) (h : resolve dirs d ts = some e) :
    resolve (Function.update dirs c (some (rs ++ [r]))) d ts = some e := by
  induction ts generalizing d with
  | nil => exact h
  | cons t ts ih =>
    rw [resolve_cons] at h ⊢
    obtain ⟨d', hlook, hres⟩ := Option.bind_eq_some_iff.1 h
    rw [look_append hd hlook]
    exact ih hres

/-- The new name means the new entry. -/
theorem look_new (hd : dirs c = some rs) (hnew : look dirs c r.name = none) :
    look (Function.update dirs c (some (rs ++ [r]))) c r.name = some r.inode := by
  unfold look at hnew ⊢
  rw [hd, Option.bind_some, Option.map_eq_none_iff] at hnew
  rw [Function.update_self, Option.bind_some, dirents_append, List.find?_append, hnew,
    Option.none_or, List.find?_cons_of_pos (by simp [DirRecord.toDirent])]
  rfl

end Append

end OsArm
