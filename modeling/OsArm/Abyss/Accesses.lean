import OsArm.Abyss.Directory

/-!
# What is read and written of a directory

Four walks go over the records of a directory block: those of `create_file`,
`abyssfs_read_dir`, `abyssfs_unlink` and `get_inode_by_path`.  Each stops at a record length 0,
and only the first one looks for the end of the block.

* `findAccesses`, `readAccesses`, `lastAccesses`, `storeAccesses`, `removeAccesses` — the bytes
  that they read and write.
* `findEntry_congr`, `readEntries_congr`, `lastEntry_congr` — the walks depend on these bytes only;
  `storeEntry_outside`, `removeEntry_outside` — nothing else is changed.
* `findAccesses_inside`, `readAccesses_inside`, `lastAccesses_inside` — over a chain that ends
  inside the block, the walks stay inside it.
-/

namespace OsArm

open RecordFormat (chain_append)

/-! ## Accesses -/

/-- The `len` bytes from `addr` on, read or written as part of the entries of the directory
whose block starts at `block`. -/
structure Access where
  block : Nat
  addr : Nat
  len : Nat

/-- The byte at `x` is one of them. -/
def Access.Covers (c : Access) (x : Nat) : Prop := c.addr ≤ x ∧ x < c.addr + c.len

/-- They lie within the block. -/
def Access.Inside (c : Access) : Prop := ∀ x, c.Covers x → c.block ≤ x ∧ x < c.block + blockSize

/-- Two memories agree on the bytes of some accesses. -/
def AgreeOn (m m' : ByteMem) (cs : List Access) : Prop := ∀ c ∈ cs, ∀ x, c.Covers x → m' x = m x

/-- `dir->rec_len`. -/
def recLenAccess (block dir : Nat) : Access := { block := block, addr := dir + 5, len := 1 }

/-- `dir->inode`. -/
def inodeAccess (block dir : Nat) : Access := { block := block, addr := dir, len := 4 }

/-- `dir->name` up to its terminator: `uart_puts` and `strcpy` read all of it, and `strcmp` no
more. -/
def nameAccess (m : ByteMem) (block dir : Nat) : Access where
  block := block
  addr := nameAddr dir
  len := (m.cstring walkFuel (nameAddr dir)).length + 1

/-- What `findEntry` reads, and the inode of the record it finds. -/
def findAccesses (m : ByteMem) (block : Nat) (name : Str) : Nat → Nat → List Access
  | 0, _ => []
  | fuel + 1, dir =>
    recLenAccess block dir ::
      if recLen m dir > 0 then
        nameAccess m block dir ::
          if strcmp m (nameAddr dir) name = 0 then [inodeAccess block dir]
          else findAccesses m block name fuel (dir + recLen m dir)
      else []

/-- What `readEntries` reads; the length of a record is read before `*count` is looked at. -/
def readAccesses (m : ByteMem) (block : Nat) : Nat → Nat → List Access
  | 0, dir => [recLenAccess block dir]
  | n + 1, dir =>
    recLenAccess block dir ::
      if recLen m dir > 0 then
        inodeAccess block dir :: nameAccess m block dir ::
          readAccesses m block n (dir + recLen m dir)
      else []

/-- What `lastEntry` reads. -/
def lastAccesses (m : ByteMem) (block blockEnd : Nat) : Nat → Nat → List Access
  | 0, _ => []
  | fuel + 1, entry =>
    if entry < blockEnd then
      recLenAccess block entry ::
        if recLen m entry > 0 then lastAccesses m block blockEnd fuel (entry + recLen m entry)
        else []
    else []

/-- What `writeEntry` writes: the header, and the name with its terminator. -/
def entryAccesses (block entry : Nat) (name : Str) : List Access :=
  [{ block := block, addr := entry, len := dirEntryFixedSize },
    { block := block, addr := nameAddr entry, len := name.length % 256 + 1 }]

/-- What `create_file` does to the block that starts at `block`. -/
def storeEntry (m : ByteMem) (block inodeNum : Nat) (name : Str) : ByteMem :=
  match (lastEntry m (block + blockSize) blockSize block none).2 with
  | some prev => writeEntry (shrinkEntry m prev (block + blockSize))
      (prev + minRecLen (nameLen m prev)) inodeNum name
  | none => writeEntry m block inodeNum name

/-- What it reads and writes there. -/
def storeAccesses (m : ByteMem) (block : Nat) (name : Str) : List Access :=
  lastAccesses m block (block + blockSize) blockSize block ++
    match (lastEntry m (block + blockSize) blockSize block none).2 with
    | some prev =>
      let entry := prev + minRecLen (nameLen m prev)
      [{ block := block, addr := prev + 4, len := 2 },
        { block := block, addr := entry,
          len := (2 ^ 64 + (block + blockSize) - entry) % 2 ^ 64 }] ++
        entryAccesses block entry name
    | none => entryAccesses block block name

/-- What `removeEntry` reads and writes. -/
def removeAccesses (m : ByteMem) (root dir : Nat) : List Access :=
  let next := dir + recLen m dir
  let remaining := (2 ^ 64 + blockSize - (next - root)) % 2 ^ 64
  [recLenAccess root dir, recLenAccess root next] ++
    if recLen m next > 0 then
      [{ block := root, addr := next, len := remaining },
        { block := root, addr := dir, len := remaining }]
    else [{ block := root, addr := dir, len := recLen m dir }]

/-- The token loop of `get_inode_by_path`. -/
def walkAccesses (fs : AbyssFs) : Nat → Nat → Str → List Access
  | 0, _, _ => []
  | fuel + 1, inode, save =>
    match strtokR save [slash] with
    | none => []
    | some (token, save) =>
      let dirBlock := (fs.inodes inode).blocks
      if dirBlock = 0 then []
      else
        match getBlock dirBlock with
        | none => []
        | some addr =>
          findAccesses fs.blocks addr token walkFuel addr ++
            match findEntry fs.blocks token walkFuel addr with
            | none => []
            | some dir =>
              match getInode fs (fs.blocks.word dir) with
              | none => []
              | some _ => walkAccesses fs fuel (fs.blocks.word dir) save

/-- `get_inode_by_path`. -/
def pathAccesses (fs : AbyssFs) (path : Str) : List Access :=
  let path := path.dropWhile (· = slash)
  if path = [] then [] else walkAccesses fs 256 1 (path.take 255)

/-- `abyssfs_read_dir` with room for `count` entries. -/
def readDirAccesses (fs : AbyssFs) (path : Str) (count : Nat) : List Access :=
  let path := path.dropWhile (· = slash)
  let dirBlock := if path = [] then some rootBlock
    else (getInodeByPath fs path).map fun n => (fs.inodes n).blocks
  (if path = [] then [] else pathAccesses fs path) ++
    match dirBlock.bind getBlock with
    | none => []
    | some dir => readAccesses fs.blocks dir count dir

/-- `abyssfs_unlink`. -/
def unlinkAccesses (fs : AbyssFs) (path : Str) : List Access :=
  let path := path.dropWhile (· = slash)
  let root := rootBlock * blockSize
  findAccesses fs.blocks root path walkFuel root ++
    match findEntry fs.blocks path walkFuel root with
    | none => []
    | some dir => removeAccesses fs.blocks root dir

/-- The address of the block `create_file` works in for a process in `"/"`. -/
def dirAddr (fs : AbyssFs) : Nat :=
  (if (fs.inodes 1).blocks = 0 then rootBlock else (fs.inodes 1).blocks) * blockSize

/-- `create_file`. -/
def createFileAccesses (fs : AbyssFs) (cwd name : Str) : List Access :=
  (if cwd ≠ [slash] then pathAccesses fs (cwd.drop 1) else []) ++
    match createDir fs cwd with
    | none => []
    | some dirInode =>
      let blocks := (fs.inodes dirInode).blocks
      if blocks = 0 ∧ dirInode ≠ 1 then []
      else storeAccesses fs.blocks ((if blocks = 0 then rootBlock else blocks) * blockSize)
        (basename name)

/-- `create_file` for a process in `"/"`. -/
theorem createFile_slash (fs : AbyssFs) (name : Str) (i : Nat) :
    createFile fs [slash] name i =
      (0, { fs with blocks := storeEntry fs.blocks (dirAddr fs) i (basename name) }) := by
  have hroot : createDir fs [slash] = some 1 := if_neg (by simp)
  have haddr : (if (fs.inodes 1).blocks = 0 then rootBlock else (fs.inodes 1).blocks) * blockSize =
      dirAddr fs := rfl
  unfold createFile storeEntry
  simp only [hroot, haddr]
  rw [if_neg (by simp)]
  cases (lastEntry fs.blocks (dirAddr fs + blockSize) blockSize (dirAddr fs) none).2 <;> rfl

theorem createFile_slash_fst (fs : AbyssFs) (name : Str) (i : Nat) :
    (createFile fs [slash] name i).1 = 0 := by rw [createFile_slash]

theorem createFileAccesses_slash (fs : AbyssFs) (name : Str) :
    createFileAccesses fs [slash] name = storeAccesses fs.blocks (dirAddr fs) (basename name) := by
  have hroot : createDir fs [slash] = some 1 := if_neg (by simp)
  unfold createFileAccesses dirAddr
  simp only [hroot]
  rw [if_neg (by simp), if_neg (by simp)]
  rfl

/-! ## What depends on the accesses -/

section Depends

variable {m m' : ByteMem} {block a fuel : Nat} {name : Str}

/-- Reading a string depends on its bytes and the terminator. -/
theorem cstring_congr
    (h : ∀ i < (m.cstring fuel a).length + 1, m' (a + i) = m (a + i)) :
    m'.cstring fuel a = m.cstring fuel a := by
  induction fuel generalizing a with
  | zero => rfl
  | succ fuel ih =>
    have h0 : m' a = m a := h 0 (by omega)
    rw [ByteMem.cstring] at h
    rw [ByteMem.cstring, ByteMem.cstring, h0]
    split
    · rfl
    · next hne =>
      rw [if_neg hne, List.length_cons] at h
      rw [ih fun i hi => ?_]
      have := h (i + 1) (by omega)
      rwa [← Nat.add_assoc, Nat.add_right_comm] at this

/-- So does `strcmp`. -/
theorem strcmp_congr (hf : name.length < fuel)
    (h : ∀ i < (m.cstring fuel a).length + 1, m' (a + i) = m (a + i)) :
    strcmp m' a name = strcmp m a name := by
  induction name generalizing a fuel with
  | nil =>
    have h0 : m' a = m a := h 0 (by omega)
    rw [strcmp, strcmp, h0]
  | cons c cs ih =>
    rw [List.length_cons] at hf
    obtain ⟨f, rfl⟩ : ∃ f, fuel = f + 1 := ⟨fuel - 1, by omega⟩
    have h0 : m' a = m a := h 0 (by omega)
    rw [strcmp, strcmp, h0]
    split
    · next hc =>
      rw [ByteMem.cstring, if_neg hc.1, List.length_cons] at h
      have hf' : cs.length < f := by omega
      refine ih hf' ?_
      intro i hi
      have := h (i + 1) (by omega)
      rwa [← Nat.add_assoc, Nat.add_right_comm] at this
    · rfl

theorem recLen_congr (h : ∀ x, (recLenAccess block a).Covers x → m' x = m x) :
    recLen m' a = recLen m a := by
  rw [recLen, recLen, h (a + 5) ⟨Nat.le_refl _, Nat.lt_succ_self _⟩]

theorem inode_congr (h : ∀ x, (inodeAccess block a).Covers x → m' x = m x) :
    m'.word a = m.word a :=
  ByteMem.word_congr fun _ hi => h _ ⟨Nat.le_add_right _ _, Nat.add_lt_add_left hi _⟩

theorem name_congr (h : ∀ x, (nameAccess m block a).Covers x → m' x = m x) :
    ∀ i < (m.cstring walkFuel (nameAddr a)).length + 1, m' (nameAddr a + i) = m (nameAddr a + i) :=
  fun _ hi => h _ ⟨Nat.le_add_right _ _, Nat.add_lt_add_left hi _⟩

/-- **The walk of `abyssfs_unlink` and `get_inode_by_path`** depends on what it reads. -/
theorem findEntry_congr (hn : name.length < walkFuel)
    (h : AgreeOn m m' (findAccesses m block name fuel a)) :
    findEntry m' name fuel a = findEntry m name fuel a := by
  induction fuel generalizing a with
  | zero => rfl
  | succ fuel ih =>
    rw [findAccesses] at h
    obtain ⟨hrec, h⟩ := List.forall_mem_cons.1 h
    rw [findEntry, findEntry, recLen_congr hrec]
    split
    · next hpos =>
      rw [if_pos hpos] at h
      obtain ⟨hname, h⟩ := List.forall_mem_cons.1 h
      rw [strcmp_congr hn (name_congr hname)]
      split
      · rfl
      · next hne =>
        rw [if_neg hne] at h
        exact ih h
    · rfl

/-- **The walk of `abyssfs_read_dir`** depends on what it reads. -/
theorem readEntries_congr (h : AgreeOn m m' (readAccesses m block fuel a)) :
    readEntries m' fuel a = readEntries m fuel a := by
  induction fuel generalizing a with
  | zero => rfl
  | succ fuel ih =>
    rw [readAccesses] at h
    obtain ⟨hrec, h⟩ := List.forall_mem_cons.1 h
    rw [readEntries, readEntries, recLen_congr hrec]
    split
    · next hpos =>
      rw [if_pos hpos] at h
      obtain ⟨hinode, h⟩ := List.forall_mem_cons.1 h
      obtain ⟨hname, h⟩ := List.forall_mem_cons.1 h
      rw [inode_congr hinode, cstring_congr (name_congr hname), ih h]
    · rfl

/-- **The walk of `create_file`** depends on what it reads. -/
theorem lastEntry_congr {blockEnd : Nat} {prev : Option Nat}
    (h : AgreeOn m m' (lastAccesses m block blockEnd fuel a)) :
    lastEntry m' blockEnd fuel a prev = lastEntry m blockEnd fuel a prev := by
  induction fuel generalizing a prev with
  | zero => rfl
  | succ fuel ih =>
    rw [lastAccesses] at h
    rw [lastEntry, lastEntry]
    by_cases hend : a < blockEnd
    · rw [if_pos hend] at h
      obtain ⟨hrec, h⟩ := List.forall_mem_cons.1 h
      rw [recLen_congr hrec]
      split
      · next hpos =>
        rw [if_pos hpos.2] at h
        exact ih h
      · rfl
    · rw [if_neg fun hc => hend hc.1, if_neg fun hc => hend hc.1]

/-- **`create_file` changes nothing else.** -/
theorem storeEntry_outside {inodeNum x : Nat} (h : ∀ c ∈ storeAccesses m block name, ¬ c.Covers x) :
    storeEntry m block inodeNum name x = m x := by
  have hentry : ∀ entry, (∀ c ∈ entryAccesses block entry name, ¬ c.Covers x) →
      x < entry ∨ entry + 7 + name.length % 256 ≤ x := by
    intro entry hno
    have h1 := hno _ List.mem_cons_self
    have h2 := hno _ (List.mem_cons_of_mem _ List.mem_cons_self)
    simp only [Access.Covers, nameAddr, dirEntryFixedSize] at h1 h2
    omega
  unfold storeAccesses at h
  unfold storeEntry
  obtain ⟨-, h⟩ := List.forall_mem_append.1 h
  cases hlast : (lastEntry m (block + blockSize) blockSize block none).2 with
  | none =>
    simp only [hlast] at h
    exact writeEntry_frame (hentry block h)
  | some prev =>
    simp only [hlast] at h
    obtain ⟨hlast, h⟩ := List.forall_mem_append.1 h
    have hprev := hlast _ List.mem_cons_self
    have hrest := hlast _ (List.mem_cons_of_mem _ List.mem_cons_self)
    simp only [Access.Covers] at hprev hrest
    simp only
    rw [writeEntry_frame (hentry _ h), shrinkEntry, memset_eq, ByteMem.blit_outside (by omega),
      ByteMem.set_of_ne (by omega)]

/-- **`abyssfs_unlink` changes nothing else.** -/
theorem removeEntry_outside {root dir x : Nat} (h : ∀ c ∈ removeAccesses m root dir, ¬ c.Covers x) :
    removeEntry m root dir x = m x := by
  unfold removeAccesses at h
  unfold removeEntry
  obtain ⟨-, h⟩ := List.forall_mem_append.1 h
  by_cases hnext : recLen m (dir + recLen m dir) > 0
  · simp only [if_pos hnext] at h ⊢
    have hto := h _ (List.mem_cons_of_mem _ List.mem_cons_self)
    simp only [Access.Covers] at hto
    rw [memmove_eq, ByteMem.blit_outside (by omega)]
  · simp only [if_neg hnext] at h ⊢
    have hto := h _ List.mem_cons_self
    simp only [Access.Covers] at hto
    rw [memset_eq, ByteMem.blit_outside (by omega)]

end Depends

/-! ## Walks over a chain -/

section Inside

variable {m : ByteMem} {block a fuel : Nat} {rs : List DirRecord} {r : DirRecord} {name : Str}

theorem Access.inside {c : Access} (hlow : c.block ≤ c.addr)
    (hhigh : c.addr + c.len ≤ c.block + blockSize) : c.Inside := by
  rintro x ⟨h1, h2⟩
  omega

theorem recLenAccess_inside (hlow : block ≤ a) (hhigh : a + 6 ≤ block + blockSize) :
    (recLenAccess block a).Inside :=
  Access.inside (Nat.le_trans hlow (Nat.le_add_right _ _)) hhigh

/-- The accesses of one record. -/
theorem stored_inside (h : dirFormat.Stored m a r) (hlow : block ≤ a)
    (hhigh : a + r.size ≤ block + blockSize) :
    (nameAccess m block a).Inside ∧ (inodeAccess block a).Inside := by
  have hfit := r.name_fits
  have hlt := r.size_lt
  unfold dirEntryFixedSize at hfit
  have hname : m.cstring walkFuel (nameAddr a) = r.name :=
    h.2.2.2.cstring_eq r.name_nul (by simp only [walkFuel, heapSize]; omega)
  refine ⟨Access.inside ?_ ?_, Access.inside hlow ?_⟩
  · simp only [nameAccess, nameAddr, dirEntryFixedSize]
    omega
  · simp only [nameAccess, hname]
    simp only [nameAddr, dirEntryFixedSize]
    omega
  · simp only [inodeAccess]
    omega

/-- The walk of `abyssfs_unlink` and `get_inode_by_path` stays inside. -/
theorem findAccesses_inside (h : dirFormat.Chain m a rs)
    (hstop : recLen m (a + dirFormat.span rs) = 0) (hlow : block ≤ a)
    (hhigh : a + dirFormat.span rs + 6 ≤ block + blockSize) :
    ∀ c ∈ findAccesses m block name fuel a, c.Inside := by
  induction rs generalizing a fuel with
  | nil =>
    rw [RecordFormat.span_nil, Nat.add_zero] at hstop hhigh
    cases fuel with
    | zero => exact fun c hc => absurd hc List.not_mem_nil
    | succ fuel =>
      rw [findAccesses, if_neg (by omega)]
      exact List.forall_mem_cons.2 ⟨recLenAccess_inside hlow hhigh, by simp⟩
  | cons r rs ih =>
    have hlen : recLen m a = r.size := h.1.2.2.1
    have hpos := r.size_pos
    rw [RecordFormat.span_cons, dirFormat_len, ← Nat.add_assoc] at hstop hhigh
    cases fuel with
    | zero => exact fun c hc => absurd hc List.not_mem_nil
    | succ fuel =>
      obtain ⟨hname, hinode⟩ := stored_inside h.1 hlow (by omega)
      rw [findAccesses, if_pos (by omega), hlen]
      refine List.forall_mem_cons.2 ⟨recLenAccess_inside hlow (by omega),
        List.forall_mem_cons.2 ⟨hname, ?_⟩⟩
      split
      · exact List.forall_mem_cons.2 ⟨hinode, by simp⟩
      · exact ih h.2 hstop (by omega) hhigh

/-- The walk of `abyssfs_read_dir` stays inside. -/
theorem readAccesses_inside (h : dirFormat.Chain m a rs)
    (hstop : recLen m (a + dirFormat.span rs) = 0) (hlow : block ≤ a)
    (hhigh : a + dirFormat.span rs + 6 ≤ block + blockSize) :
    ∀ c ∈ readAccesses m block fuel a, c.Inside := by
  induction rs generalizing a fuel with
  | nil =>
    rw [RecordFormat.span_nil, Nat.add_zero] at hstop hhigh
    have hrec := recLenAccess_inside hlow hhigh
    cases fuel with
    | zero => exact List.forall_mem_cons.2 ⟨hrec, by simp⟩
    | succ fuel =>
      rw [readAccesses, if_neg (by omega)]
      exact List.forall_mem_cons.2 ⟨hrec, by simp⟩
  | cons r rs ih =>
    have hlen : recLen m a = r.size := h.1.2.2.1
    have hpos := r.size_pos
    rw [RecordFormat.span_cons, dirFormat_len, ← Nat.add_assoc] at hstop hhigh
    have hrec := recLenAccess_inside hlow (show a + 6 ≤ block + blockSize by omega)
    cases fuel with
    | zero => exact List.forall_mem_cons.2 ⟨hrec, by simp⟩
    | succ fuel =>
      obtain ⟨hname, hinode⟩ := stored_inside h.1 hlow (by omega)
      rw [readAccesses, if_pos (by omega), hlen]
      exact List.forall_mem_cons.2 ⟨hrec, List.forall_mem_cons.2 ⟨hinode,
        List.forall_mem_cons.2 ⟨hname, ih h.2 hstop (by omega) hhigh⟩⟩⟩

/-- The walk of `create_file` stays inside. -/
theorem lastAccesses_inside {blockEnd : Nat} (h : dirFormat.Chain m a rs)
    (hstop : recLen m (a + dirFormat.span rs) = 0) (hlow : block ≤ a)
    (hhigh : a + dirFormat.span rs + 6 ≤ block + blockSize) :
    ∀ c ∈ lastAccesses m block blockEnd fuel a, c.Inside := by
  induction rs generalizing a fuel with
  | nil =>
    rw [RecordFormat.span_nil, Nat.add_zero] at hstop hhigh
    cases fuel with
    | zero => exact fun c hc => absurd hc List.not_mem_nil
    | succ fuel =>
      rw [lastAccesses, if_neg (by omega : ¬ recLen m a > 0)]
      split
      · exact List.forall_mem_cons.2 ⟨recLenAccess_inside hlow hhigh, by simp⟩
      · simp
  | cons r rs ih =>
    have hlen : recLen m a = r.size := h.1.2.2.1
    have hpos := r.size_pos
    rw [RecordFormat.span_cons, dirFormat_len, ← Nat.add_assoc] at hstop hhigh
    cases fuel with
    | zero => exact fun c hc => absurd hc List.not_mem_nil
    | succ fuel =>
      rw [lastAccesses, if_pos (by omega : recLen m a > 0), hlen]
      split
      · exact List.forall_mem_cons.2 ⟨recLenAccess_inside hlow (by omega),
          ih h.2 hstop (by omega) hhigh⟩
      · simp

/-- The walk of `findEntry` finds a record. -/
theorem findEntry_cut {dir : Nat} (h : dirFormat.Chain m a rs)
    (hstop : recLen m (a + dirFormat.span rs) = 0) (hdir : findEntry m name fuel a = some dir) :
    ∃ us r ts, rs = us ++ r :: ts ∧ dir = a + dirFormat.span us := by
  induction rs generalizing a fuel with
  | nil =>
    rw [RecordFormat.span_nil, Nat.add_zero] at hstop
    cases fuel with
    | zero => cases hdir
    | succ fuel =>
      rw [findEntry, if_neg (by omega)] at hdir
      cases hdir
  | cons r rs ih =>
    have hlen : recLen m a = r.size := h.1.2.2.1
    have hpos := r.size_pos
    rw [RecordFormat.span_cons, dirFormat_len, ← Nat.add_assoc] at hstop
    cases fuel with
    | zero => cases hdir
    | succ fuel =>
      rw [findEntry, if_pos (by omega), hlen] at hdir
      split at hdir
      · exact ⟨[], r, rs, rfl, (Option.some.inj hdir).symm⟩
      · obtain ⟨us, q, ts, rfl, rfl⟩ := ih h.2 hstop hdir
        exact ⟨r :: us, q, ts, rfl, by rw [RecordFormat.span_cons, dirFormat_len, Nat.add_assoc]⟩

end Inside

end OsArm
