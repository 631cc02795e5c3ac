import OsArm.Abyss.Open

/-!
# Which blocks AbyssFS reads as directories

`get_inode_by_path` and `abyssfs_read_dir` do not look at the mode of an inode: they search the
block of whatever inode a component of the path names.

* `walkPathLog`, `readDirBlocks` — the same walks, with the blocks that they interpret as
  directory entries.
* `Names` — where a path leads through blocks of directories only; `searchTokens_of_names` and
  `names_of_searchTokens` relate it to what the code does.
* `onlyDirectories_iff` — the paths for which only directories are walked as directories;
  `fileA_walked_as_directory` is a file for which they are not.
-/

namespace OsArm

/-! ## What is interpreted -/

/-- The token loop of `get_inode_by_path`, with the blocks it searches. -/
def walkPathLog (fs : AbyssFs) : Nat → Nat → Str → Option Nat × List Nat
  | 0, _, _ => (none, [])
  | fuel + 1, inode, save =>
    match strtokR save [slash] with
    | none => (some inode, [])
    | some (token, save) =>
      let dirBlock := (fs.inodes inode).blocks
      if dirBlock = 0 then (none, [])
      else
        match getBlock dirBlock with
        | none => (none, [])
        | some addr =>
          match findEntry fs.blocks token walkFuel addr with
          | none => (none, [dirBlock])
          | some dir =>
            match getInode fs (fs.blocks.word dir) with
            | none => (none, [dirBlock])
            | some _ =>
              let r := walkPathLog fs fuel (fs.blocks.word dir) save
              (r.1, dirBlock :: r.2)

/-- The blocks that `get_inode_by_path` interprets as directory entries. -/
def walkBlocks (fs : AbyssFs) (path : Str) : List Nat :=
  let path := path.dropWhile (· = slash)
  if path = [] then [] else (walkPathLog fs 256 1 (path.take 255)).2

/-- The blocks that `abyssfs_read_dir` interprets as directory entries. -/
def readDirBlocks (fs : AbyssFs) (path : Str) : List Nat :=
  let path := path.dropWhile (· = slash)
  if path = [] then [rootBlock]
  else walkBlocks fs path ++
    match getInodeByPath fs path with
    | none => []
    | some n => if (fs.inodes n).blocks < totalBlocks then [(fs.inodes n).blocks] else []

/-- The log belongs to the walk. -/
theorem walkPathLog_fst (fs : AbyssFs) (fuel inode : Nat) (save : Str) :
    (walkPathLog fs fuel inode save).1 = walkPath fs fuel inode save := by
  induction fuel generalizing inode save with
  | zero => rfl
  | succ fuel ih =>
    rw [walkPathLog, walkPath]
    cases strtokR save [slash] with
    | none => rfl
    | some x =>
      obtain ⟨token, rest⟩ := x
      dsimp only
      by_cases hzero : (fs.inodes inode).blocks = 0
      · rw [if_pos hzero, if_pos hzero]
      · rw [if_neg hzero, if_neg hzero]
        cases getBlock (fs.inodes inode).blocks with
        | none => rfl
        | some addr =>
          simp only [Option.bind_some]
          cases findEntry fs.blocks token walkFuel addr with
          | none => rfl
          | some dir =>
            simp only
            cases getInode fs (fs.blocks.word dir) with
            | none => rfl
            | some _ => exact ih _ _

/-- The same search over a list of components. -/
def searchTokens (fs : AbyssFs) : Nat → List Str → Option Nat × List Nat
  | inode, [] => (some inode, [])
  | inode, token :: ts =>
    let dirBlock := (fs.inodes inode).blocks
    if dirBlock = 0 ∨ totalBlocks ≤ dirBlock then (none, [])
    else
      match findEntry fs.blocks token walkFuel (dirBlock * blockSize) with
      | none => (none, [dirBlock])
      | some dir =>
        if maxInodes ≤ fs.blocks.word dir then (none, [dirBlock])
        else
          let r := searchTokens fs (fs.blocks.word dir) ts
          (r.1, dirBlock :: r.2)

/-- The walk over a string is the search over its components. -/
theorem walkPathLog_eq (fs : AbyssFs) {fuel : Nat} (inode : Nat) {save : Str}
    (hfuel : save.length < fuel) :
    walkPathLog fs fuel inode save = searchTokens fs inode (tokens save) := by
  induction fuel generalizing inode save with
  | zero => exact absurd hfuel (Nat.not_lt_zero _)
  | succ fuel ih =>
    rw [walkPathLog]
    cases htok : strtokR save [slash] with
    | none =>
      rw [tokens_of_strtokR_none htok]
      rfl
    | some x =>
      obtain ⟨token, rest⟩ := x
      obtain ⟨htokens, hlen, -, -⟩ := tokens_of_strtokR_some htok
      rw [htokens, searchTokens]
      dsimp only
      by_cases hzero : (fs.inodes inode).blocks = 0
      · rw [if_pos hzero, if_pos (Or.inl hzero)]
      · rw [if_neg hzero, getBlock]
        by_cases hblock : (fs.inodes inode).blocks ≥ totalBlocks
        · rw [if_pos hblock, if_pos (Or.inr hblock)]
        · rw [if_neg hblock, if_neg (not_or.2 ⟨hzero, hblock⟩)]
          simp only
          cases findEntry fs.blocks token walkFuel ((fs.inodes inode).blocks * blockSize) with
          | none => rfl
          | some dir =>
            simp only [getInode]
            by_cases hnum : fs.blocks.word dir ≥ maxInodes
            · rw [if_pos hnum, if_pos hnum]
            · rw [if_neg hnum, if_neg hnum]
              simp only
              rw [ih _ (by omega)]

/-! ## What a path means -/

/-- `mode & 0x4000`. -/
def IsDir (fs : AbyssFs) (n : Nat) : Prop := (fs.inodes n).mode &&& 0x4000 ≠ 0

/-- The block `b` is that of an inode with `mode & 0x4000` set. -/
def BlockOfDir (fs : AbyssFs) (b : Nat) : Prop :=
  ∃ d, d < maxInodes ∧ IsDir fs d ∧ (fs.inodes d).blocks = b

/-- The inode has a block. -/
def HasBlock (fs : AbyssFs) (n : Nat) : Prop :=
  (fs.inodes n).blocks ≠ 0 ∧ (fs.inodes n).blocks < totalBlocks

/-- From inode `n` on, the components lead to `m` **through blocks of directories only**. -/
def NamesFrom (fs : AbyssFs) : Nat → List Str → Nat → Prop
  | n, [], m => m = n
  | n, t :: ts, m =>
    HasBlock fs n ∧ BlockOfDir fs (fs.inodes n).blocks ∧
      ∃ dir, findEntry fs.blocks t walkFuel ((fs.inodes n).blocks * blockSize) = some dir ∧
        fs.blocks.word dir < maxInodes ∧ NamesFrom fs (fs.blocks.word dir) ts m

/-- The components name the inode `m`. -/
def Names (fs : AbyssFs) (ts : List Str) (m : Nat) : Prop := NamesFrom fs 1 ts m

/-- The components in the copy of the path that `get_inode_by_path` makes, of 255 bytes. -/
def components (path : Str) : List Str := tokens ((path.dropWhile (· = slash)).take 255)

/-- **Only directories are walked as directories.** -/
structure OnlyDirectories (fs : AbyssFs) (path : Str) : Prop where
  walk : ∀ b ∈ walkBlocks fs path, BlockOfDir fs b
  read_dir : ∀ b ∈ readDirBlocks fs path, BlockOfDir fs b
  /-- A path that names a regular file is not listed. -/
  file : ∀ n, Names fs (tokens path) n → ¬ IsDir fs n → ∀ count, abyssfsReadDir fs path count = none
  /-- A path with a regular file as an inner component resolves to `NULL`. -/
  inner : ∀ us ts n, tokens path = us ++ ts → ts ≠ [] → Names fs us n → ¬ IsDir fs n →
    getInodeByPath fs path = none

/-- **The path is clean** in this state. -/
structure CleanPath (fs : AbyssFs) (path : Str) : Prop where
  /-- No component but the last names an inode with a block that is not a directory's. -/
  walk : ∀ us ts n, components path = us ++ ts → ts ≠ [] → Names fs us n → HasBlock fs n →
    BlockOfDir fs (fs.inodes n).blocks
  /-- What is listed is the block of a directory. -/
  listed : if path.dropWhile (· = slash) = [] then BlockOfDir fs rootBlock
    else ∀ n, Names fs (components path) n → (fs.inodes n).blocks < totalBlocks →
      BlockOfDir fs (fs.inodes n).blocks
  /-- It does not name a regular file; only with a block number out of range it may. -/
  file : ∀ n, Names fs (tokens path) n → ¬ IsDir fs n → path.dropWhile (· = slash) ≠ [] ∧
    ∀ m, Names fs (components path) m → totalBlocks ≤ (fs.inodes m).blocks
  /-- Where a component but the last names a regular file, its first 255 bytes name nothing. -/
  inner : ∀ us ts n, tokens path = us ++ ts → ts ≠ [] → Names fs us n → ¬ IsDir fs n →
    ∀ m, ¬ Names fs (components path) m

/-! ## The calls by components -/

section Components

variable {fs : AbyssFs} {path : Str} {ts : List Str} {n m : Nat}

theorem components_of_nil (h : path.dropWhile (· = slash) = []) : components path = [] := by
  rw [components, h]
  rfl

theorem components_dropWhile : components (path.dropWhile (· = slash)) = components path := by
  rw [components, List.dropWhile_idempotent, components]

/-- `get_inode_by_path` by components. -/
theorem getInodeByPath_search :
    getInodeByPath fs path = (searchTokens fs 1 (components path)).1 := by
  unfold getInodeByPath
  by_cases hnil : path.dropWhile (· = slash) = []
  · rw [components_of_nil hnil]
    simp only [if_pos hnil]
    rfl
  · have hlen : ((path.dropWhile (· = slash)).take 255).length < 256 := by
      rw [List.length_take]
      omega
    simp only [if_neg hnil]
    rw [← walkPathLog_fst, walkPathLog_eq fs 1 hlen, components]

theorem walkBlocks_search : walkBlocks fs path = (searchTokens fs 1 (components path)).2 := by
  unfold walkBlocks
  by_cases hnil : path.dropWhile (· = slash) = []
  · rw [components_of_nil hnil]
    simp only [if_pos hnil]
    rfl
  · have hlen : ((path.dropWhile (· = slash)).take 255).length < 256 := by
      rw [List.length_take]
      omega
    simp only [if_neg hnil]
    rw [walkPathLog_eq fs 1 hlen, components]

theorem getInodeByPath_dropWhile :
    getInodeByPath fs (path.dropWhile (· = slash)) = getInodeByPath fs path := by
  rw [getInodeByPath_search, components_dropWhile, ← getInodeByPath_search]

/-- What `abyssfs_read_dir` interprets. -/
theorem mem_readDirBlocks {b : Nat} : b ∈ readDirBlocks fs path ↔
    if path.dropWhile (· = slash) = [] then b = rootBlock
    else b ∈ walkBlocks fs path ∨ ∃ n, getInodeByPath fs path = some n ∧
      (fs.inodes n).blocks < totalBlocks ∧ b = (fs.inodes n).blocks := by
  unfold readDirBlocks
  by_cases hnil : path.dropWhile (· = slash) = []
  · simp only [if_pos hnil, List.mem_singleton]
  · simp only [if_neg hnil, getInodeByPath_dropWhile, List.mem_append]
    rw [walkBlocks_search, components_dropWhile, ← walkBlocks_search]
    cases getInodeByPath fs path with
    | none => simp
    | some n =>
      by_cases hlt : (fs.inodes n).blocks < totalBlocks
      · simp [hlt]
      · simp [hlt]

/-- When `abyssfs_read_dir` fails. -/
theorem abyssfsReadDir_eq_none {count : Nat} : abyssfsReadDir fs path count = none ↔
    path.dropWhile (· = slash) ≠ [] ∧
      ∀ n, getInodeByPath fs path = some n → totalBlocks ≤ (fs.inodes n).blocks := by
  unfold abyssfsReadDir
  by_cases hnil : path.dropWhile (· = slash) = []
  · have hroot : getBlock rootBlock = some (rootBlock * blockSize) := by decide
    simp [hnil, hroot]
  · simp only [if_neg hnil, getInodeByPath_dropWhile]
    cases getInodeByPath fs path with
    | none => simp [hnil]
    | some n =>
      simp only [Option.map_some, Option.bind_some, getBlock]
      by_cases hlt : (fs.inodes n).blocks ≥ totalBlocks
      · simp [hnil, hlt]
      · simp [hnil, hlt]

/-! ## Names and the search -/

/-- What the components name, the search finds. -/
theorem searchTokens_of_names (h : NamesFrom fs n ts m) : (searchTokens fs n ts).1 = some m := by
  induction ts generalizing n with
  | nil => exact congrArg some h.symm
  | cons t ts ih =>
    obtain ⟨⟨hne, hlt⟩, -, dir, hfind, hnum, hrest⟩ := h
    rw [searchTokens]
    simp only [if_neg (not_or.2 ⟨hne, Nat.not_le.2 hlt⟩), hfind, if_neg (Nat.not_le.2 hnum)]
    exact ih hrest

/-- One component of the search. -/
theorem searchTokens_cons (fs : AbyssFs) (n : Nat) (t : Str) (ts : List Str) :
    searchTokens fs n (t :: ts) = (none, []) ∧ ¬ HasBlock fs n ∨
    HasBlock fs n ∧ (searchTokens fs n (t :: ts) = (none, [(fs.inodes n).blocks]) ∧
        (∀ dir, findEntry fs.blocks t walkFuel ((fs.inodes n).blocks * blockSize) = some dir →
          maxInodes ≤ fs.blocks.word dir) ∨
      ∃ dir, findEntry fs.blocks t walkFuel ((fs.inodes n).blocks * blockSize) = some dir ∧
        fs.blocks.word dir < maxInodes ∧
        searchTokens fs n (t :: ts) = ((searchTokens fs (fs.blocks.word dir) ts).1,
          (fs.inodes n).blocks :: (searchTokens fs (fs.blocks.word dir) ts).2)) := by
  rw [searchTokens]
  dsimp only
  by_cases hblock : (fs.inodes n).blocks = 0 ∨ totalBlocks ≤ (fs.inodes n).blocks
  · rw [if_pos hblock]
    refine Or.inl ⟨rfl, ?_⟩
    intro h
    rcases hblock with hzero | hle
    · exact h.1 hzero
    · exact absurd h.2 (Nat.not_lt.2 hle)
  · rw [if_neg hblock]
    rw [not_or, Nat.not_le] at hblock
    refine Or.inr ⟨hblock, ?_⟩
    cases hfind : findEntry fs.blocks t walkFuel ((fs.inodes n).blocks * blockSize) with
    | none => exact Or.inl ⟨rfl, fun dir h => by cases h⟩
    | some dir =>
      dsimp only
      by_cases hnum : maxInodes ≤ fs.blocks.word dir
      · rw [if_pos hnum]
        refine Or.inl ⟨rfl, ?_⟩
        intro dir' h
        rw [← Option.some.inj h]
        exact hnum
      · rw [if_neg hnum]
        exact Or.inr ⟨dir, rfl, Nat.not_le.1 hnum, rfl⟩

/-- What the search finds through blocks of directories only, the components name. -/
theorem names_of_searchTokens (hdirs : ∀ b ∈ (searchTokens fs n ts).2, BlockOfDir fs b)
    (h : (searchTokens fs n ts).1 = some m) : NamesFrom fs n ts m := by
  induction ts generalizing n with
  | nil => exact (Option.some.inj h).symm
  | cons t ts ih =>
    rcases searchTokens_cons fs n t ts with
      ⟨hsearch, -⟩ | ⟨hblock, ⟨hsearch, -⟩ | ⟨dir, hfind, hnum, hsearch⟩⟩
    · rw [hsearch] at h
      cases h
    · rw [hsearch] at h
      cases h
    · rw [hsearch] at h hdirs
      exact ⟨hblock, hdirs _ List.mem_cons_self, dir, hfind, hnum,
        ih (fun b hb => hdirs b (List.mem_cons_of_mem _ hb)) h⟩

/-- **The search stays in blocks of directories** if and only if no component but the last leads
out of them. -/
theorem searchTokens_blocksOfDirs : (∀ b ∈ (searchTokens fs n ts).2, BlockOfDir fs b) ↔
    ∀ us vs m, ts = us ++ vs → vs ≠ [] → NamesFrom fs n us m → HasBlock fs m →
      BlockOfDir fs (fs.inodes m).blocks := by
  induction ts generalizing n with
  | nil =>
    refine ⟨?_, fun _ b hb => absurd hb List.not_mem_nil⟩
    intro _ us vs m hcut hvs
    exact absurd (List.append_eq_nil_iff.1 hcut.symm).2 hvs
  | cons t ts ih =>
    rcases searchTokens_cons fs n t ts with
      ⟨hsearch, hno⟩ | ⟨hblock, ⟨hsearch, hnone⟩ | ⟨dir, hfind, hnum, hsearch⟩⟩
    · rw [hsearch]
      refine ⟨?_, fun _ b hb => absurd hb List.not_mem_nil⟩
      intro _ us vs m hcut hvs hnames hm
      cases us with
      | nil =>
        have hmn : m = n := hnames
        rw [hmn] at hm
        exact absurd hm hno
      | cons u us => exact absurd hnames.1 hno
    · rw [hsearch]
      refine ⟨?_, ?_⟩
      · intro hdirs us vs m hcut hvs hnames hm
        cases us with
        | nil =>
          have hmn : m = n := hnames
          rw [hmn]
          exact hdirs _ List.mem_cons_self
        | cons u us =>
          obtain ⟨-, -, dir, hfind, hnum, -⟩ := hnames
          rw [List.cons_append, List.cons.injEq] at hcut
          rw [← hcut.1] at hfind
          exact absurd hnum (Nat.not_lt.2 (hnone dir hfind))
      · intro hall b hb
        rw [List.mem_singleton.1 hb]
        exact hall [] (t :: ts) n rfl (List.cons_ne_nil _ _) rfl hblock
    · rw [hsearch]
      refine ⟨?_, ?_⟩
      · intro hdirs us vs m hcut hvs hnames hm
        cases us with
        | nil =>
          have hmn : m = n := hnames
          rw [hmn]
          exact hdirs _ List.mem_cons_self
        | cons u us =>
          obtain ⟨-, -, dir', hfind', -, hrest⟩ := hnames
          rw [List.cons_append, List.cons.injEq] at hcut
          rw [← hcut.1, hfind, Option.some_inj] at hfind'
          rw [← hfind'] at hrest
          exact ih.1 (fun b hb => hdirs b (List.mem_cons_of_mem _ hb)) us vs m hcut.2 hvs hrest hm
      · intro hall b hb
        have hhere := hall [] (t :: ts) n rfl (List.cons_ne_nil _ _) rfl hblock
        rcases List.mem_cons.1 hb with rfl | hb
        · exact hhere
        · refine ih.2 (fun us vs m hcut hvs hnames hm => ?_) b hb
          exact hall (t :: us) vs m (by rw [hcut, List.cons_append]) hvs
            ⟨hblock, hhere, dir, hfind, hnum, hnames⟩ hm

/-! ## Clean paths -/

/-- **Only directories are walked as directories if and only if the path is clean.** -/
theorem onlyDirectories_iff (fs : AbyssFs) (path : Str) :
    OnlyDirectories fs path ↔ CleanPath fs path := by
  have hfinds : ∀ m, Names fs (components path) m → getInodeByPath fs path = some m := by
    intro m hm
    rw [getInodeByPath_search]
    exact searchTokens_of_names hm
  have hwalk : (∀ b ∈ walkBlocks fs path, BlockOfDir fs b) ↔ ∀ us ts n, components path = us ++ ts →
      ts ≠ [] → Names fs us n → HasBlock fs n → BlockOfDir fs (fs.inodes n).blocks := by
    rw [walkBlocks_search]
    exact searchTokens_blocksOfDirs
  refine ⟨?_, ?_⟩
  · intro h
    refine ⟨hwalk.1 h.walk, ?_, ?_, ?_⟩
    · split
      · next hnil => exact h.read_dir _ (mem_readDirBlocks.2 (by rw [if_pos hnil]))
      · next hnil =>
        intro n hn hlt
        refine h.read_dir _ (mem_readDirBlocks.2 ?_)
        rw [if_neg hnil]
        exact Or.inr ⟨n, hfinds n hn, hlt, rfl⟩
    · intro n hn hfile
      obtain ⟨hne, hall⟩ := abyssfsReadDir_eq_none.1 (h.file n hn hfile 0)
      exact ⟨hne, fun m hm => hall m (hfinds m hm)⟩
    · intro us ts n hcut hts hn hfile m hm
      have hnone := h.inner us ts n hcut hts hn hfile
      rw [hfinds m hm] at hnone
      cases hnone
  · intro c
    have hdirs := hwalk.2 c.walk
    have hnamed : ∀ m, getInodeByPath fs path = some m → Names fs (components path) m := by
      intro m hm
      rw [getInodeByPath_search] at hm
      rw [walkBlocks_search] at hdirs
      exact names_of_searchTokens hdirs hm
    refine ⟨hdirs, ?_, ?_, ?_⟩
    · intro b hb
      have hlisted := c.listed
      rw [mem_readDirBlocks] at hb
      split at hb
      · next hnil =>
        rw [if_pos hnil] at hlisted
        rw [hb]
        exact hlisted
      · next hnil =>
        rw [if_neg hnil] at hlisted
        rcases hb with hb | ⟨n, hn, hlt, rfl⟩
        · exact hdirs b hb
        · exact hlisted n (hnamed n hn) hlt
    · intro n hn hfile count
      obtain ⟨hne, hall⟩ := c.file n hn hfile
      exact abyssfsReadDir_eq_none.2 ⟨hne, fun m hm => hall m (hnamed m hm)⟩
    · intro us ts n hcut hts hn hfile
      cases hget : getInodeByPath fs path with
      | none => rfl
      | some m => exact absurd (hnamed m hget) (c.inner us ts n hcut hts hn hfile m)

end Components

/-- A new file is listed: what is read is block 0. -/
theorem not_onlyDirectories_fresh {fs : AbyssFs} {path : Str} {n : Nat}
    (hne : path.dropWhile (· = slash) ≠ []) (hpath : getInodeByPath fs path = some n)
    (hblock : (fs.inodes n).blocks = 0) (hdirs : ∀ d, IsDir fs d → (fs.inodes d).blocks ≠ 0) :
    abyssfsReadDir fs path 1 ≠ none ∧ ¬ OnlyDirectories fs path := by
  have hlt : (fs.inodes n).blocks < totalBlocks := by
    rw [hblock]
    decide
  refine ⟨?_, ?_⟩
  · intro hnone
    exact absurd hlt (Nat.not_lt.2 ((abyssfsReadDir_eq_none.1 hnone).2 n hpath))
  · intro h
    have hmem : 0 ∈ readDirBlocks fs path := by
      rw [mem_readDirBlocks, if_neg hne]
      exact Or.inr ⟨n, hpath, hlt, hblock.symm⟩
    obtain ⟨d, -, hdir, hzero⟩ := h.read_dir 0 hmem
    exact hdirs d hdir hzero

/-- A fresh file system with the file `a`. -/
def withFileA : AbyssFs := createIn (abyssfsInit fun _ => 0) [slash] nameA.bytes

theorem inodes_withFileA : withFileA.inodes = (allocInode (abyssfsInit fun _ => 0)).2.inodes := by
  rw [withFileA, createIn_eq, abyssfsCreate_inodes]

/-- The path of the file leads to inode 2. -/
theorem getInodeByPath_withFileA : getInodeByPath withFileA nameA.bytes = some 2 := by
  have hroom : 20 + dirFormat.span [] + recSize nameA.bytes.length ≤ 4088 := by decide
  have halloc := allocInode_init
  rw [withFileA, createIn_eq]
  rcases (rootInv_init fun _ => 0).create (Heap.mk 0) nameA hroom with
    ⟨hzero, -⟩ | ⟨i, hlt, hi, -, -, hinv⟩
  · rw [halloc] at hzero
    exact absurd hzero (by decide)
  · have hi2 : i = 2 := hi.symm.trans halloc
    exact (hinv.getInodeByPath_some nameA rfl fun q hq => absurd hq List.not_mem_nil).trans
      (congrArg some hi2)

/-- The file `a`, which has no block, is listed as a directory. -/
theorem fileA_walked_as_directory : getInodeByPath withFileA nameA.bytes = some 2 ∧
    ¬ IsDir withFileA 2 ∧ abyssfsReadDir withFileA nameA.bytes 1 ≠ none ∧
    ¬ OnlyDirectories withFileA nameA.bytes := by
  have halloc : allocInode (abyssfsInit fun _ => 0) =
      (2, (abyssfsInit fun _ => 0).setInode 2 { Inode.zero with mode := 0x1FF }) := by rfl
  have hnode : withFileA.inodes 2 = { Inode.zero with mode := 0x1FF } := by
    rw [inodes_withFileA, halloc]
    exact setInode_self
  have hother : ∀ d, d ≠ 2 → withFileA.inodes d = (abyssfsInit fun _ => 0).inodes d := by
    intro d hd
    rw [inodes_withFileA, halloc]
    exact setInode_of_ne hd
  have hfile : ¬ IsDir withFileA 2 := by
    rw [IsDir, hnode]
    decide
  refine ⟨getInodeByPath_withFileA, hfile, not_onlyDirectories_fresh (by decide)
    getInodeByPath_withFileA (by rw [hnode]; rfl) fun d hdir => ?_⟩
  have hd2 : d ≠ 2 := by
    rintro rfl
    exact hfile hdir
  rw [IsDir, hother d hd2] at hdir
  rw [hother d hd2]
  by_cases hd1 : d = 1
  · subst hd1
    decide
  · simp [abyssfsInit, hd1, Inode.zero] at hdir

end OsArm
