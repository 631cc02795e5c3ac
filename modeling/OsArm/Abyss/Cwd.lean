import OsArm.Abyss.Failures
import OsArm.Abyss.Survival
import OsArm.Abyss.Tree
import OsArm.Abyss.Walks

/-!
# Where `create_file` works

`create_file` resolves `cwd`.  As long as the root holds files only, `cwd` leads to the root
itself, when it consists of `"."` and `".."` (`StaysInRoot`), or not to a directory at all.

* `RootKept.createDir_root` — then every file goes into the root.
* `RootKept.not_findsDir` — otherwise none is made, as long as no file in the root has a block.
-/

namespace OsArm

/-- The components of `cwd` that `create_file` looks up are `"."` and `".."`. -/
def StaysInRoot (cwd : Str) : Prop :=
  ∀ t ∈ components (cwd.drop 1), t = str ['.'] ∨ t = str ['.', '.']

theorem createDir_eq (fs : AbyssFs) (cwd : Str) :
    createDir fs cwd = (searchTokens fs 1 (components (cwd.drop 1))).1 := by
  rw [← getInodeByPath_search, createDir]
  split
  · rfl
  · next hcwd =>
    rw [not_not.1 hcwd]
    rfl

/-- `create_file` asks `cwd` for the directory only. -/
theorem createFile_of_root {fs : AbyssFs} {cwd : Str} (h : createDir fs cwd = some 1)
    (name : Str) (i : Nat) :
    createFile fs cwd name i = createFile fs [slash] name i := by
  have hroot : createDir fs [slash] = some 1 := if_neg (by simp)
  unfold createFile
  rw [h, hroot]

/-- What `abyssfs_create` does where `cwd` is no directory: the inode it takes is kept. -/
theorem abyssfsCreate_of_not_findsDir {fs : AbyssFs} {cwd : Str}
    (h : ¬ FindsDir (allocInode fs).2 cwd) (heap : Heap) (path : Str) :
    abyssfsCreate heap fs cwd path = (none, heap, (allocInode fs).2) := by
  have hneg : ∀ name i, (createFile (allocInode fs).2 cwd name i).1 < 0 :=
    fun name i => createFile_neg_iff.2 h
  have hkeep : ∀ name i, (createFile (allocInode fs).2 cwd name i).2 = (allocInode fs).2 := by
    intro name i
    have hfail := hneg name i
    unfold createFile at hfail ⊢
    cases hdir : createDir (allocInode fs).2 cwd with
    | none => rfl
    | some d =>
      rw [hdir] at hfail
      dsimp only at hfail ⊢
      split at hfail
      · next hblock => rw [if_pos hblock]
      · split at hfail <;> exact absurd hfail (lt_irrefl 0)
  unfold abyssfsCreate
  dsimp only
  split
  · rfl
  · rw [if_pos (hneg _ _), hkeep]

namespace RootKept

variable {fs : AbyssFs} {rs : List DirRecord} {cwd : Str} {ts : List Str}

/-- The inode that a name of the root has. -/
theorem findEntry_word (h : RootKept fs rs) {name : Str} (hn : NulFree name) :
    (findEntry fs.blocks name walkFuel rootAddr).map fs.blocks.word =
      ((dirents 1 rs).find? (·.name = name)).map Dirent.inode :=
  h.dir.block.findEntry_word hn

theorem hasBlock_root (h : RootKept fs rs) : HasBlock fs 1 := by
  rw [HasBlock, h.own.root.2]
  decide

/-- One component, looked up in the root. -/
theorem searchTokens_root (h : RootKept fs rs) {t : Str} (ht : NulFree t) :
    (searchTokens fs 1 (t :: ts)).1 = none ∨ ∃ e ∈ dirents 1 rs, e.name = t ∧
      (searchTokens fs 1 (t :: ts)).1 = (searchTokens fs e.inode ts).1 := by
  have haddr : (fs.inodes 1).blocks * blockSize = rootAddr := by rw [h.own.root.2, rootAddr]
  rcases searchTokens_cons fs 1 t ts with ⟨hnone, -⟩ | ⟨-, ⟨hnone, -⟩ | ⟨dir, hfind, -, hrest⟩⟩
  · exact Or.inl (by rw [hnone])
  · exact Or.inl (by rw [hnone])
  · have hword := h.findEntry_word ht
    rw [haddr] at hfind
    rw [hfind, Option.map_some] at hword
    obtain ⟨e, he, hinode⟩ := Option.map_eq_some_iff.1 hword.symm
    refine Or.inr ⟨e, List.mem_of_find?_eq_some he, by simpa using List.find?_some he, ?_⟩
    rw [hrest, hinode]

/-- One of the root's own records leads to the root. -/
theorem searchTokens_dot (h : RootKept fs rs) {t : Str} (ht : t = str ['.'] ∨ t = str ['.', '.']) :
    (searchTokens fs 1 (t :: ts)).1 = (searchTokens fs 1 ts).1 := by
  obtain ⟨dir, hfind, hword⟩ := h.findEntry_dots ht
  have hroot := h.hasBlock_root
  have haddr : (fs.inodes 1).blocks * blockSize = rootAddr := by rw [h.own.root.2, rootAddr]
  rw [searchTokens]
  simp only [if_neg (not_or.2 ⟨hroot.1, Nat.not_le.2 hroot.2⟩), haddr, hfind, hword]
  rw [if_neg (by decide)]

/-- **`create_file` works in the root** for a process that stays there. -/
theorem createDir_root (h : RootKept fs rs) (hcwd : StaysInRoot cwd) :
    createDir fs cwd = some 1 := by
  rw [createDir_eq]
  unfold StaysInRoot at hcwd
  generalize components (cwd.drop 1) = ts at hcwd ⊢
  induction ts with
  | nil => rfl
  | cons t ts ih =>
    obtain ⟨ht, hrest⟩ := List.forall_mem_cons.1 hcwd
    rw [h.searchTokens_dot ht]
    exact ih hrest

/-- Any other path ends at a file, when files have no blocks to be looked into. -/
theorem searchTokens_files (h : RootKept fs rs) (hempty : ∀ r ∈ rs, (fs.inodes r.inode).blocks = 0)
    (hnul : ∀ t ∈ ts, NulFree t) (hts : ¬ ∀ t ∈ ts, t = str ['.'] ∨ t = str ['.', '.']) {d : Nat}
    (hd : (searchTokens fs 1 ts).1 = some d) : d ≠ 1 ∧ (fs.inodes d).blocks = 0 := by
  induction ts with
  | nil => exact absurd (fun t ht => by cases ht) hts
  | cons t ts ih =>
    obtain ⟨ht, hrest⟩ := List.forall_mem_cons.1 hnul
    by_cases hdots : t = str ['.'] ∨ t = str ['.', '.']
    · rw [h.searchTokens_dot hdots] at hd
      exact ih hrest (fun hall => hts (List.forall_mem_cons.2 ⟨hdots, hall⟩)) hd
    · have hroot : (searchTokens fs 1 (t :: ts)).1 = none ∨ ∃ e ∈ dirents 1 rs, e.name = t ∧
          (searchTokens fs 1 (t :: ts)).1 = (searchTokens fs e.inode ts).1 := h.searchTokens_root ht
      rcases hroot with hnone | ⟨e, he, hname, hsame⟩
      · rw [hnone] at hd
        cases hd
      · have hfile : ∃ r ∈ rs, r.toDirent = e := by
          rcases List.mem_cons.1 he with rfl | he
          · exact absurd (Or.inl hname.symm) hdots
          · rcases List.mem_cons.1 he with rfl | he
            · exact absurd (Or.inr hname.symm) hdots
            · exact List.mem_map.1 he
        obtain ⟨r, hr, rfl⟩ := hfile
        have hblocks : (fs.inodes r.toDirent.inode).blocks = 0 := hempty r hr
        have hlive := (h.live r hr).1
        rw [hsame] at hd
        cases ts with
        | nil =>
          obtain rfl := Option.some.inj hd
          exact ⟨by show r.inode ≠ 1; omega, hblocks⟩
        | cons t' ts =>
          rw [searchTokens, if_pos (Or.inl hblocks)] at hd
          cases hd

/-- **No file is made** for a process that does not stay in the root, when files have no blocks. -/
theorem not_findsDir (h : RootKept fs rs) (hnul : NulFree cwd) (hcwd : ¬ StaysInRoot cwd)
    (hempty : ∀ r ∈ rs, (fs.inodes r.inode).blocks = 0) : ¬ FindsDir fs cwd := by
  rintro ⟨d, hd, hdir⟩
  rw [createDir_eq] at hd
  have htokens : ∀ t ∈ components (cwd.drop 1), NulFree t := by
    intro t ht h0
    have hmem := List.mem_of_mem_take (mem_of_mem_tokens ht h0)
    exact hnul (List.mem_of_mem_drop ((List.dropWhile_sublist _).mem hmem))
  obtain ⟨hne, hzero⟩ := h.searchTokens_files hempty htokens hcwd hd
  rcases hdir with hblock | rfl
  · exact hblock hzero
  · exact hne rfl

/-! ## Creating -/

/-- Whatever `alloc_inode` answers, the entries are the same. -/
theorem kept_allocInode (h : RootKept fs rs) : RootKept (OsArm.allocInode fs).2 rs := by
  rcases h.allocInode with hnone | ⟨i, -, -, -, -, -, hkept⟩
  · rw [hnone]
    exact h
  · exact hkept

/-- **`abyssfs_create` of a short name** by a process that stays in the root: nothing happens, or
there is one entry more, that of the inode of the handle. -/
theorem create_short (h : RootKept fs rs) (hcwd : StaysInRoot cwd) (heap : Heap) {p : PathArg}
    (hl : (basename p.strip).length ≤ 245) (hfits : (RootCall.create p).Fits fs) :
    abyssfsCreate heap fs cwd p.bytes = (none, heap, fs) ∨ ∃ (i : Nat) (hi32 : i < 2 ^ 32), i ≠ 1 ∧
      (abyssfsCreate heap fs cwd p.bytes).1 = (kalloc heap sizeofVfsFile).map (fun _ =>
        { fOps := .abyssfs, privateData := i, fPos := 0 }) ∧
      RootKept (abyssfsCreate heap fs cwd p.bytes).2.2
        (rs ++ [entryRecord (basename p.strip) i p.basename_nulFree hl hi32]) := by
  have hroot : abyssfsCreate heap fs cwd p.bytes = abyssfsCreate heap fs [slash] p.bytes := by
    unfold abyssfsCreate
    simp only [createFile_of_root (h.kept_allocInode.createDir_root hcwd)]
  have hmod : (basename p.strip).length % 256 = (basename p.strip).length :=
    Nat.mod_eq_of_lt (by omega)
  rw [hroot]
  rcases h.allocInode with hnone | ⟨i, hi, h2, -⟩
  · refine Or.inl ?_
    simp only [abyssfsCreate, hnone, if_true]
  · have hroom := h.room_iff.1 (hfits (by rw [hi]; dsimp only; omega))
    rcases h.create heap p.bytes rfl p.basename_nulFree
      (show (basename p.strip).length % 256 ≤ 249 by omega) hroom with
      ⟨-, hnone⟩ | ⟨k, hk32, -, hhandle, hk2, -, added, hkept, hadded⟩
    · exact Or.inl hnone
    · refine Or.inr ⟨k, hk32, by omega, hhandle, ?_⟩
      rwa [hadded hl] at hkept

end RootKept

end OsArm
