import OsArm.Abyss.Accesses
import OsArm.Abyss.Placement
import OsArm.Abyss.Walks

/-!
# Long names and the 8-bit record length

`create_file` computes `rec_len` with `round_up`, in `uint8_t`.

* `RecordBlock` — a block of records that are multiples of 4 long; `RecordBlock.create` is what
  `create_file` does to it.
* `NamesHeld` — after two creations the listing shows both names in full, and no record length
  is smaller than its record.
* `namesHeld_iff` — this is so if and only if both names have at most 245 bytes;
  `long_name_hidden` is a name that is lost.
-/

namespace OsArm

/-- **A well-formed directory block** at `a`, with the records `rs`. -/
structure RecordBlock (m : ByteMem) (a : Nat) (rs : List DirRecord) : Prop where
  chain : dirFormat.Chain m a rs
  stop : recLen m (a + dirFormat.span rs) = 0
  aligned : ∀ r ∈ rs, 4 ∣ r.size
  ne_nil : rs ≠ []

/-- The directory `d` has a well-formed block with the records `rs`, and `free` bytes behind its
last entry. -/
structure RecordDir (fs : AbyssFs) (d : Nat) (rs : List DirRecord) (free : Nat) : Prop where
  data : (fs.inodes d).blocks ≠ 0 ∧ (fs.inodes d).blocks < totalBlocks
  root : d = 1 → (fs.inodes d).blocks = rootBlock
  block : RecordBlock fs.blocks ((fs.inodes d).blocks * blockSize) rs
  fits : dirFormat.span rs + free ≤ blockSize

/-- The lengths of the names and the lengths of the records that a walk meets. -/
def walkLens (m : ByteMem) : Nat → Nat → List (Nat × Nat)
  | 0, _ => []
  | fuel + 1, dir =>
    if recLen m dir > 0 then (nameLen m dir, recLen m dir) :: walkLens m fuel (dir + recLen m dir)
    else []

/-- **The names are held** by the directory `d`: behind the entries `old` it shows the entries
`new`, each with its full name, and no length of a record, computed or stored, is smaller than
the record. -/
structure NamesHeld (fs : AbyssFs) (d : Nat) (old new : List Dirent) : Prop where
  listing : ∀ count, listing fs d count = (old ++ new).take count
  paths : ∀ path count, getInodeByPath fs path = some d →
    abyssfsReadDir fs path count = some ((old ++ new).take count)
  computed : ∀ e ∈ new, dirEntryFixedSize + e.name.length + 1 ≤ minRecLen e.name.length
  stored : ∀ p ∈ walkLens fs.blocks blockSize ((fs.inodes d).blocks * blockSize),
    dirEntryFixedSize + p.1 + 1 ≤ p.2

/-- A name as a path admits it. -/
structure LongName where
  bytes : Str
  ne_nil : bytes ≠ []
  length_le : bytes.length ≤ 254
  no_slash : slash ∉ bytes
  nul_free : NulFree bytes

@[simp] theorem LongName.basename_eq (n : LongName) : basename n.bytes = n.bytes :=
  basename_of_notMem n.no_slash

/-! ## Record lengths -/

/-- The 8-bit arithmetic gives less than the record takes for all names that are too long. -/
theorem minRecLen_lt {len : Nat} (h : 245 < len) (h' : len ≤ 254) :
    minRecLen len < dirEntryFixedSize + len + 1 := by
  have hall : ∀ i : Fin 9, minRecLen (246 + i) < 253 := by decide +kernel
  have hlt := hall ⟨len - 246, by omega⟩
  rw [show 246 + (len - 246) = len by omega] at hlt
  unfold dirEntryFixedSize
  omega

/-- A length that is a multiple of 4 and holds the name is not less than the computed one. -/
theorem DirRecord.recSize_le {r : DirRecord} (h : 4 ∣ r.size) :
    r.name.length ≤ 245 ∧ recSize r.name.length ≤ r.size := by
  obtain ⟨k, hk⟩ := h
  have hfit := r.name_fits
  have hlt := r.size_lt
  unfold dirEntryFixedSize at hfit
  unfold recSize
  omega

/-! ## One creation -/

namespace RecordBlock

variable {m : ByteMem} {a : Nat} {rs : List DirRecord}

theorem walkLens_eq (h : dirFormat.Chain m a rs) (hstop : recLen m (a + dirFormat.span rs) = 0)
    (fuel : Nat) : walkLens m fuel a = (rs.map fun r => (r.name.length, r.size)).take fuel := by
  induction rs generalizing a fuel with
  | nil =>
    cases fuel with
    | zero => rfl
    | succ fuel =>
      rw [RecordFormat.span_nil, Nat.add_zero] at hstop
      rw [walkLens, if_neg (by omega)]
      rfl
  | cons r rs ih =>
    cases fuel with
    | zero => rfl
    | succ fuel =>
      obtain ⟨-, hname, hlen, -⟩ := h.1
      have hpos := r.size_pos
      have htail : dirFormat.Chain m (a + r.size) rs := h.2
      rw [RecordFormat.span_cons, dirFormat_len, ← Nat.add_assoc] at hstop
      rw [walkLens, if_pos (by omega), hname, hlen, ih htail hstop]
      rfl

/-- **`create_file` in a well-formed block**: the last record is shrunk, and the new one stands
behind it. -/
theorem create (h : RecordBlock m a rs) (hbig : a + blockSize < 2 ^ 64) {name : Str} {i : Nat}
    (hn : NulFree name) (hl : name.length ≤ 245) (hi : i < 2 ^ 32)
    (hroom : dirFormat.span rs + recSize name.length + 6 ≤ blockSize) :
    ∃ rs', RecordBlock (storeEntry m a i name) a rs' ∧
      rs'.map DirRecord.toDirent = rs.map DirRecord.toDirent ++ [{ inode := i, name := name }] ∧
      dirFormat.span rs' ≤ dirFormat.span rs + recSize name.length := by
  obtain ⟨us, last, rfl⟩ := List.eq_nil_or_concat' rs |>.resolve_left h.ne_nil
  obtain ⟨hlast, hle⟩ := DirRecord.recSize_le (h.aligned last (by simp))
  have hspan : dirFormat.span (us ++ [last]) = dirFormat.span us + last.size := by simp
  have hcount := dirFormat.length_le_span us
  rw [hspan] at hroom
  obtain ⟨last', hname, hinode, hsize⟩ : ∃ last' : DirRecord, last'.name = last.name ∧
      last'.inode = last.inode ∧ last'.size = recSize last.name.length :=
    ⟨{ last with size := _, name_fits := le_recSize _, size_lt := recSize_lt hlast }, rfl, rfl, rfl⟩
  have hexact : last'.Exact := ⟨by rwa [hname], by rw [hsize, hname]⟩
  have hprev : (lastEntry m (a + blockSize) blockSize a none).2 = some (a + dirFormat.span us) :=
    lastEntry_chain h.chain h.stop (by rw [hspan]; omega) (by have := last.size_pos; omega)
  obtain ⟨hchain, hstop, -⟩ :=
    chain_append_entry h.chain hname hinode hexact hn hl hi (by omega) hbig
    rfl rfl
  have hstore : storeEntry m a i name = writeEntry (shrinkEntry m (a + dirFormat.span us)
      (a + blockSize)) (a + dirFormat.span us + minRecLen (nameLen m (a + dirFormat.span us))) i
        name := by
    rw [storeEntry, hprev]
  have hspan' : dirFormat.span (us ++ [last', entryRecord name i hn hl hi]) =
      dirFormat.span us + last'.size + recSize name.length := by
    simp [entryRecord, Nat.add_assoc]
  rw [hstore]
  refine ⟨_, ⟨hchain, ?_, ?_, by simp⟩, ?_, ?_⟩
  · rw [hspan', ← Nat.add_assoc, ← Nat.add_assoc]
    exact hstop
  · refine List.forall_mem_append.2 ⟨fun r hr => h.aligned r (List.mem_append_left _ hr), ?_⟩
    refine List.forall_mem_cons.2 ⟨?_, List.forall_mem_cons.2 ⟨?_, by simp⟩⟩
    · rw [hsize]
      exact Nat.dvd_mul_left 4 _
    · exact Nat.dvd_mul_left 4 _
  · simp [DirRecord.toDirent, hname, hinode, entryRecord]
  · rw [hspan', hspan]
    omega

end RecordBlock

/-- `create_file` in a directory with a block. -/
theorem createFile_storeEntry {fs : AbyssFs} {cwd name : Str} {d : Nat} (i : Nat)
    (hc : createDir fs cwd = some d) (hne : (fs.inodes d).blocks ≠ 0) :
    createFile fs cwd name i = (0, { fs with
      blocks := storeEntry fs.blocks ((fs.inodes d).blocks * blockSize) i (basename name) }) := by
  unfold createFile storeEntry
  simp only [hc, hne, false_and, if_false]
  cases (lastEntry fs.blocks ((fs.inodes d).blocks * blockSize + blockSize) blockSize
    ((fs.inodes d).blocks * blockSize) none).2 <;> rfl

namespace RecordDir

variable {fs : AbyssFs} {d i free : Nat} {rs : List DirRecord}

theorem create (h : RecordDir fs d rs free) {cwd : Str} {n : LongName}
    (hc : createDir fs cwd = some d) (hl : n.bytes.length ≤ 245) (hi : i < 2 ^ 32)
    (hfree : recSize n.bytes.length + 6 ≤ free) :
    ∃ rs', RecordDir (createFile fs cwd n.bytes i).2 d rs' (free - recSize n.bytes.length) ∧
      rs'.map DirRecord.toDirent =
        rs.map DirRecord.toDirent ++ [{ inode := i, name := n.bytes }] := by
  have hbig := block_end_lt h.data.2
  have hfits := h.fits
  obtain ⟨rs', hblock, hlist, hspan⟩ := h.block.create hbig n.nul_free hl hi (by omega)
  rw [createFile_storeEntry i hc h.data.1, n.basename_eq]
  exact ⟨rs', ⟨h.data, h.root, hblock, by omega⟩, hlist⟩

/-- What a listing shows. -/
theorem listing_eq (h : RecordDir fs d rs free) (count : Nat) :
    listing fs d count = (rs.map DirRecord.toDirent).take count :=
  readEntries_chain h.block.chain h.block.stop

/-- A path to the directory lists it. -/
theorem readDir_eq (h : RecordDir fs d rs free) {path : Str}
    (hpath : getInodeByPath fs path = some d) (count : Nat) :
    abyssfsReadDir fs path count = some ((rs.map DirRecord.toDirent).take count) := by
  rw [← h.listing_eq, listing]
  unfold abyssfsReadDir
  by_cases hnil : path.dropWhile (· = slash) = []
  · have hone : d = 1 := by
      rw [getInodeByPath] at hpath
      simp only [if_pos hnil] at hpath
      exact (Option.some.inj hpath).symm
    have hblock : getBlock rootBlock = some (rootBlock * blockSize) := by decide
    simp only [if_pos hnil, Option.bind_some, hblock, h.root hone]
  · have hblock : getBlock (fs.inodes d).blocks = some ((fs.inodes d).blocks * blockSize) :=
      if_neg (Nat.not_le.2 h.data.2)
    simp only [if_neg hnil, getInodeByPath_dropWhile, hpath, Option.map_some,
      Option.bind_some, hblock]

end RecordDir

/-- **Both names are held** if and only if both have at most 245 bytes: for every directory with a
well-formed block and 600 bytes left, and any two names that a path admits. -/
theorem namesHeld_iff {fs fs₁ fs₂ : AbyssFs} {d i j : Nat} {rs : List DirRecord} {cwd cwd' : Str}
    {a b : LongName} (h : RecordDir fs d rs 600) (hi : i < 2 ^ 32) (hj : j < 2 ^ 32)
    (hc : createDir fs cwd = some d) (ha : createFile fs cwd a.bytes i = (0, fs₁))
    (hc' : createDir fs₁ cwd' = some d) (hb : createFile fs₁ cwd' b.bytes j = (0, fs₂)) :
    NamesHeld fs₂ d (rs.map DirRecord.toDirent)
        [{ inode := i, name := a.bytes }, { inode := j, name := b.bytes }] ↔
      a.bytes.length ≤ 245 ∧ b.bytes.length ≤ 245 := by
  constructor
  · intro hheld
    have hle : ∀ n : LongName, dirEntryFixedSize + n.bytes.length + 1 ≤ minRecLen n.bytes.length →
        n.bytes.length ≤ 245 := by
      intro n hn
      by_contra hlong
      exact absurd hn (Nat.not_le.2 (minRecLen_lt (Nat.not_le.1 hlong) n.length_le))
    exact ⟨hle a (hheld.computed _ List.mem_cons_self),
      hle b (hheld.computed _ (List.mem_cons_of_mem _ List.mem_cons_self))⟩
  · rintro ⟨hla, hlb⟩
    have hsa := recSize_lt hla
    have hsb := recSize_lt hlb
    obtain ⟨rs₁, h₁, hlist₁⟩ := h.create hc hla hi (by omega)
    rw [ha] at h₁
    obtain ⟨rs₂, h₂, hlist₂⟩ := h₁.create hc' hlb hj (by omega)
    rw [hb] at h₂
    have hlist : rs₂.map DirRecord.toDirent = rs.map DirRecord.toDirent ++
        [{ inode := i, name := a.bytes }, { inode := j, name := b.bytes }] := by
      rw [hlist₂, hlist₁]
      simp
    refine ⟨?_, ?_, ?_, ?_⟩
    · intro count
      rw [h₂.listing_eq, hlist]
    · intro path count hpath
      rw [h₂.readDir_eq hpath, hlist]
    · have hcomputed : ∀ n : LongName, n.bytes.length ≤ 245 →
          dirEntryFixedSize + n.bytes.length + 1 ≤ minRecLen n.bytes.length := by
        intro n hn
        rw [minRecLen_eq hn]
        exact le_recSize _
      exact List.forall_mem_cons.2
        ⟨hcomputed a hla, List.forall_mem_cons.2 ⟨hcomputed b hlb, by simp⟩⟩
    · intro p hp
      rw [RecordBlock.walkLens_eq h₂.block.chain h₂.block.stop] at hp
      obtain ⟨r, -, rfl⟩ := List.mem_map.1 (List.mem_of_mem_take hp)
      exact r.name_fits

/-! ## A name that is lost -/

/-- 246 times `x`. -/
def name246 : LongName where
  bytes := List.replicate 246 120
  ne_nil := List.cons_ne_nil _ _
  length_le := by
    rw [List.length_replicate]
    decide
  no_slash := fun hmem => absurd (List.eq_of_mem_replicate hmem) (by decide)
  nul_free := fun hmem => absurd (List.eq_of_mem_replicate hmem) (by decide)

/-- The name `b`. -/
def nameB : LongName where
  bytes := str ['b']
  ne_nil := by decide
  length_le := by decide
  no_slash := by decide
  nul_free := by unfold NulFree; decide

/-- The two creations. -/
def twoNames : AbyssFs :=
  (createFile (createFile (abyssfsInit fun _ => 0) [slash] name246.bytes 2).2
    [slash] nameB.bytes 3).2

/-- Two creations in the root. -/
def createTwo (fs : AbyssFs) (n n' : LongName) (i j : Nat) : AbyssFs :=
  (createFile (createFile fs [slash] n.bytes i).2 [slash] n'.bytes j).2

/-- The second creation works in the directory of the first. -/
theorem createTwo_blocks {fs : AbyssFs} (h : dirAddr fs = rootAddr) (n n' : LongName) (i j : Nat) :
    (createTwo fs n n' i j).blocks =
      storeEntry (storeEntry fs.blocks rootAddr i n.bytes) rootAddr j n'.bytes := by
  rw [createTwo, createFile_slash, createFile_slash, n.basename_eq, n'.basename_eq, ← h]
  rfl

/-- Stated with `createTwo`, since `twoNames` unfolds to a pair that the kernel would compute. -/
theorem twoNames_eq : twoNames = createTwo (abyssfsInit fun _ => 0) name246 nameB 2 3 := rfl

/-- In a directory the name is hidden: its record has the length 0. -/
theorem DirBlock.create_name246 {m : ByteMem} {addr ino i : Nat} {rs : List DirRecord}
    (h : DirBlock m addr ino rs) (hbig : addr + blockSize < 2 ^ 64) :
    DirBlock (storeEntry m addr i name246.bytes) addr ino rs := by
  obtain ⟨ts, last, last', -, -, -, -, -, -, hprev⟩ := h.last
  have hlen : name246.bytes.length = 246 := List.length_replicate
  rw [storeEntry, hprev]
  refine h.create_hidden _ hbig hprev (fun x hx => writeEntry_frame (Or.inl hx)) ?_
  rw [recLen_writeEntry, hlen]
  exact minRecLen_eq_zero (by decide) (by decide)

/-- The root of a fresh file system is a well-formed directory. -/
theorem recordDir_init : RecordDir (abyssfsInit fun _ => 0) 1
    [selfDot 1 (by decide), dotdot true] 600 := by
  have haddr : ((abyssfsInit fun _ => 0).inodes 1).blocks * blockSize = rootAddr := rfl
  have hchain : dirFormat.Chain (abyssfsInit fun _ => 0).blocks rootAddr
      [selfDot 1 (by decide), dotdot true] := putDots_chain (by decide)
  have hspan : dirFormat.span [selfDot 1 (by decide), dotdot true] = 256 := rfl
  have hclean : (abyssfsInit fun _ => 0).blocks (rootAddr + 256 + 5) = 0 :=
    abyssfsInit_clean (by omega) (by decide)
  refine ⟨⟨by decide, by decide⟩, fun _ => rfl, ⟨?_, ?_, by decide, by simp⟩, by decide⟩
  · rw [haddr]
    exact hchain
  · rw [haddr, hspan, recLen, hclean]
    rfl

/-- What the block holds in the end. -/
theorem twoNames_dir : ∃ r : DirRecord, r.toDirent = { inode := 3, name := str ['b'] } ∧
    RootDir twoNames.blocks [r] := by
  have hbig : rootAddr + blockSize < 2 ^ 64 := by decide
  have hfirst := (rootDir_init fun _ => 0).block.create_name246 (i := 2) hbig
  have hlen : nameB.bytes.length ≤ 245 := by decide
  have hthree : 3 < 2 ^ 32 := by decide
  obtain ⟨prev, hprev, hspec⟩ := hfirst.create hbig nameB.nul_free hlen hthree (by decide)
  have haddr : dirAddr (abyssfsInit fun _ => 0) = rootAddr := rfl
  have hblocks := createTwo_blocks haddr name246 nameB 2 3
  rw [storeEntry, hprev] at hblocks
  obtain ⟨hsecond, -⟩ := hspec _ hblocks
  rw [twoNames_eq]
  exact ⟨entryRecord nameB.bytes 3 nameB.nul_free hlen hthree, rfl, RootDir.of_block hsecond⟩

/-- **The first of the two names is lost**: the root lists the second only. -/
theorem long_name_hidden : RecordDir (abyssfsInit fun _ => 0) 1
    [selfDot 1 (by decide), dotdot true] 600 ∧
    (∀ count, abyssfsReadDir twoNames [slash] count =
      some ([{ inode := 1, name := str ['.'] }, { inode := 1, name := str ['.', '.'] },
        { inode := 3, name := str ['b'] }].take count)) ∧
    ¬ NamesHeld twoNames 1 [{ inode := 1, name := str ['.'] },
      { inode := 1, name := str ['.', '.'] }]
      [{ inode := 2, name := name246.bytes }, { inode := 3, name := nameB.bytes }] := by
  obtain ⟨r, hr, hdir⟩ := twoNames_dir
  have hlist : ∀ count, abyssfsReadDir twoNames [slash] count =
      some ([{ inode := 1, name := str ['.'] }, { inode := 1, name := str ['.', '.'] },
        { inode := 3, name := str ['b'] }].take count) := by
    intro count
    rw [hdir.readDir, List.map_cons, List.map_cons, List.map_cons, hr]
    rfl
  refine ⟨recordDir_init, hlist, ?_⟩
  intro hheld
  have hfour := hheld.paths [slash] 4 (by rw [getInodeByPath]; rfl)
  rw [hlist 4, Option.some.injEq] at hfour
  exact absurd (congrArg List.length hfour) (by simp)

/-- Two names of one byte are held. -/
theorem namesHeld_iff_short : NamesHeld
    (createFile (createFile (abyssfsInit fun _ => 0) [slash] nameB.bytes 2).2
    [slash] nameB.bytes 3).2 1
    ([selfDot 1 (by decide), dotdot true].map DirRecord.toDirent)
    [{ inode := 2, name := nameB.bytes }, { inode := 3, name := nameB.bytes }] := by
  have hc : ∀ fs, createDir fs [slash] = some 1 := fun _ => if_neg (by simp)
  have hret : ∀ fs i, createFile fs [slash] nameB.bytes i =
      (0, (createFile fs [slash] nameB.bytes i).2) := fun fs i => by rw [createFile_slash]
  exact (namesHeld_iff recordDir_init (by decide) (by decide) (hc _) (hret _ _) (hc _) (hret _ _)).2
    ⟨by decide, by decide⟩

end OsArm
