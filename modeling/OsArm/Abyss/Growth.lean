import OsArm.Abyss.Placement

/-!
# Trees that grow

A tree of AbyssFS is well formed (`WellFormed`) when the state stores its directories, the
names of a directory are different, and every entry refers to an inode in use that no other
entry refers to.  Creations by processes that stand in the directory of the new entry
build such trees.

* `WellFormed.put`, `WellFormed.addDir` — one entry and one directory more.
* `WellFormed.create`, `WellFormed.mkdir` — a creation with a fresh inode keeps the tree well
  formed.
* `WellFormed.allocInode` — so does one that fails for want of an inode.
-/

namespace OsArm

/-- `r` is an entry of the directory `d`. -/
def Entry (dirs : Dirs) (d : Nat) (r : DirRecord) : Prop := ∃ rs, dirs d = some rs ∧ r ∈ rs

/-- **A well-formed tree.** -/
structure WellFormed (fs : AbyssFs) (dirs : Dirs) : Prop where
  stores : Stores fs dirs
  names : ∀ d rs, dirs d = some rs → (rs.map DirRecord.name).Nodup
  name : ∀ d r, Entry dirs d r → ∃ n : EntryName, n.bytes = r.name
  /-- Entries refer to inodes in use, none of them the root's. -/
  live : ∀ d r, Entry dirs d r → 2 ≤ r.inode ∧ (fs.inodes r.inode).mode ≠ 0
  /-- The mode tells the directories. -/
  kind : ∀ d r, Entry dirs d r →
    ((fs.inodes r.inode).mode &&& 0x4000 ≠ 0 ↔ (dirs r.inode).isSome)
  /-- An inode has one entry at most. -/
  parent : ∀ d d' r r', Entry dirs d r → Entry dirs d' r' → r.inode = r'.inode → d = d' ∧ r = r'

/-! ## Entries -/

section Entries

variable {dirs : Dirs} {c d i : Nat} {rs : List DirRecord} {q r : DirRecord}

theorem entry_of_mem (hd : dirs d = some rs) (hr : r ∈ rs) : Entry dirs d r := ⟨rs, hd, hr⟩

/-- A directory without entries has none. -/
theorem entry_update_nil (hi : dirs i = none) :
    Entry (Function.update dirs i (some [])) d q ↔ Entry dirs d q := by
  unfold Entry
  by_cases hdi : d = i
  · subst hdi
    rw [Function.update_self, hi]
    simp
  · rw [Function.update_of_ne hdi]

theorem entry_put (hc : dirs c = some rs) :
    Entry (dirs.put c rs r) d q ↔ Entry dirs d q ∨ d = c ∧ q = r := by
  unfold Entry Dirs.put
  by_cases hdc : d = c
  · subst hdc
    rw [Function.update_self, hc]
    simp
  · rw [Function.update_of_ne hdc]
    simp [hdc]

theorem isSome_put (hc : dirs c = some rs) : (dirs.put c rs r d).isSome ↔ (dirs d).isSome := by
  unfold Dirs.put
  by_cases hdc : d = c
  · subst hdc
    rw [Function.update_self, hc]
    simp
  · rw [Function.update_of_ne hdc]

/-- A name that means nothing in a directory is no entry's. -/
theorem name_ne_of_look (hd : dirs d = some rs) {t : Str} (h : look dirs d t = none) (hr : r ∈ rs) :
    r.name ≠ t := by
  unfold look at h
  rw [hd, Option.bind_some, Option.map_eq_none_iff, List.find?_eq_none] at h
  have hmem : r.toDirent ∈ dirents d rs :=
    List.mem_cons_of_mem _ (List.mem_cons_of_mem _ (List.mem_map_of_mem hr))
  exact fun hname => h r.toDirent hmem (decide_eq_true hname)

end Entries

namespace WellFormed

variable {fs fs' : AbyssFs} {dirs : Dirs} {c d i : Nat} {rs : List DirRecord} {r : DirRecord}

/-- Whatever keeps the directories and the inodes of the entries keeps the tree. -/
theorem frame (h : WellFormed fs dirs) (hstores : Stores fs' dirs)
    (hinodes : ∀ d r, Entry dirs d r → fs'.inodes r.inode = fs.inodes r.inode) :
    WellFormed fs' dirs where
  stores := hstores
  names := h.names
  name := h.name
  live := by
    intro d r hr
    rw [hinodes d r hr]
    exact h.live d r hr
  kind := by
    intro d r hr
    rw [hinodes d r hr]
    exact h.kind d r hr
  parent := h.parent

/-- A free inode is no entry's. -/
theorem entry_ne (h : WellFormed fs dirs) (hi : (fs.inodes i).mode = 0) (hr : Entry dirs d r) :
    r.inode ≠ i := by
  rintro rfl
  exact (h.live d r hr).2 hi

/-- One directory more, that no entry refers to yet. -/
theorem addDir (h : WellFormed fs dirs) (hi : dirs i = none)
    (hfresh : ∀ d r, Entry dirs d r → r.inode ≠ i)
    (hstores : Stores fs' (Function.update dirs i (some [])))
    (hinodes : ∀ d r, Entry dirs d r → fs'.inodes r.inode = fs.inodes r.inode) :
    WellFormed fs' (Function.update dirs i (some [])) where
  stores := hstores
  names := by
    intro d rs hd
    by_cases hdi : d = i
    · subst hdi
      rw [Function.update_self, Option.some.injEq] at hd
      subst hd
      simp
    · rw [Function.update_of_ne hdi] at hd
      exact h.names d rs hd
  name := fun d r hr => h.name d r ((entry_update_nil hi).1 hr)
  live := by
    intro d r hr
    rw [entry_update_nil hi] at hr
    rw [hinodes d r hr]
    exact h.live d r hr
  kind := by
    intro d r hr
    rw [entry_update_nil hi] at hr
    rw [hinodes d r hr, Function.update_of_ne (hfresh d r hr)]
    exact h.kind d r hr
  parent := fun d d' r r' hr hr' =>
    h.parent d d' r r' ((entry_update_nil hi).1 hr) ((entry_update_nil hi).1 hr')

/-- One entry more, with a name that the directory does not have and an inode that no entry
refers to. -/
theorem put (h : WellFormed fs dirs) (hc : dirs c = some rs)
    (hstores : Stores fs' (dirs.put c rs r))
    (hinodes : ∀ d q, Entry dirs d q → fs'.inodes q.inode = fs.inodes q.inode)
    (hnew : ∀ q ∈ rs, q.name ≠ r.name) (hname : ∃ n : EntryName, n.bytes = r.name)
    (hfresh : ∀ d q, Entry dirs d q → q.inode ≠ r.inode)
    (hlive : 2 ≤ r.inode ∧ (fs'.inodes r.inode).mode ≠ 0)
    (hkind : (fs'.inodes r.inode).mode &&& 0x4000 ≠ 0 ↔ (dirs r.inode).isSome) :
    WellFormed fs' (dirs.put c rs r) where
  stores := hstores
  names := by
    intro d es hd
    by_cases hdc : d = c
    · subst hdc
      rw [Dirs.put, Function.update_self, Option.some.injEq] at hd
      subst hd
      rw [List.map_append, List.nodup_append]
      refine ⟨h.names d rs hc, by simp, ?_⟩
      rintro a ha b hb rfl
      obtain ⟨q, hq, rfl⟩ := List.mem_map.1 ha
      exact hnew q hq (by simpa using hb)
    · rw [Dirs.put, Function.update_of_ne hdc] at hd
      exact h.names d es hd
  name := by
    intro d q hq
    rcases (entry_put hc).1 hq with hq | ⟨-, rfl⟩
    · exact h.name d q hq
    · exact hname
  live := by
    intro d q hq
    rcases (entry_put hc).1 hq with hq | ⟨-, rfl⟩
    · rw [hinodes d q hq]
      exact h.live d q hq
    · exact hlive
  kind := by
    intro d q hq
    rw [isSome_put hc]
    rcases (entry_put hc).1 hq with hq | ⟨-, rfl⟩
    · rw [hinodes d q hq]
      exact h.kind d q hq
    · exact hkind
  parent := by
    intro d d' q q' hq hq' heq
    rcases (entry_put hc).1 hq with hold | ⟨hd, hqr⟩
    · rcases (entry_put hc).1 hq' with hold' | ⟨-, hqr'⟩
      · exact h.parent d d' q q' hold hold' heq
      · rw [hqr'] at heq
        exact absurd heq (hfresh d q hold)
    · rcases (entry_put hc).1 hq' with hold' | ⟨hd', hqr'⟩
      · rw [hqr] at heq
        exact absurd heq.symm (hfresh d' q' hold')
      · exact ⟨hd.trans hd'.symm, hqr.trans hqr'.symm⟩

/-- The inode of a creation is not the root's. -/
theorem two_le_allocInode (h : WellFormed fs dirs) (hne : (allocInode fs).1 ≠ 0) :
    2 ≤ (allocInode fs).1 := by
  have hnone := (h.stores.allocInode_fresh hne).2.2.1
  have hroot := h.stores.root.1
  have h1 : (allocInode fs).1 ≠ 1 := by
    intro h1
    rw [h1] at hnone
    rw [hnone] at hroot
    cases hroot
  omega

/-- **`abyssfs_create`** with a fresh inode. -/
theorem create (h : WellFormed fs dirs) (heap : Heap) {cwd : VfsPath} {path : Str} {n : EntryName}
    (habs : cwd.Absolute) (hcwd : cwd.Leads dirs c) (hc : dirs c = some rs)
    (hname : basename (path.dropWhile (· = slash)) = n.bytes) (hnew : look dirs c n.bytes = none)
    (hroom : 20 + dirFormat.span rs + recSize n.bytes.length ≤ 4088)
    (hne : (allocInode fs).1 ≠ 0) (hlt : (allocInode fs).1 < maxInodes) :
    WellFormed (abyssfsCreate heap fs cwd.bytes path).2.2
      (dirs.put c rs (n.record (allocInode fs).1 hlt)) := by
  obtain ⟨-, -, hnone, hmode, -⟩ := h.stores.allocInode_fresh hne
  have hstores := h.stores.create heap path habs hcwd hc hname n.nul_free n.length_le hroom hne
    (Nat.lt_trans hlt (by decide))
  have hinodes := abyssfsCreate_inodes heap fs cwd.bytes path
  have hfresh : ∀ d q, Entry dirs d q → q.inode ≠ (allocInode fs).1 :=
    fun d q hq => h.entry_ne (mode_of_allocInode hne) hq
  refine h.put hc hstores (fun d q hq => ?_)
    (fun q hq => name_ne_of_look hc hnew hq) ⟨n, rfl⟩ hfresh
    ⟨h.two_le_allocInode hne, ?_⟩ ?_
  · rw [hinodes]
    exact allocInode_of_ne (hfresh d q hq)
  · rw [hinodes, EntryName.record_inode, hmode]
    decide
  · rw [hinodes, EntryName.record_inode, hmode, hnone]
    decide

/-- **`abyssfs_mkdir`** with a fresh inode and a fresh block. -/
theorem mkdir (h : WellFormed fs dirs) {cwd : VfsPath} {path : Str} {n : EntryName}
    (habs : cwd.Absolute) (hcwd : cwd.Leads dirs c) (hc : dirs c = some rs)
    (hname : basename (path.dropWhile (· = slash)) = n.bytes) (hnew : look dirs c n.bytes = none)
    (hroom : 20 + dirFormat.span rs + recSize n.bytes.length ≤ 4088)
    (hne : (allocInode fs).1 ≠ 0) (hlt : (allocInode fs).1 < maxInodes)
    (hb : (allocBlock (allocInode fs).2).1 ≠ 0)
    (hclean : recLen fs.blocks ((allocBlock (allocInode fs).2).1 * blockSize + 256) = 0) :
    WellFormed (abyssfsMkdir fs cwd.bytes path).2
      (Dirs.put (Function.update dirs (allocInode fs).1 (some [])) c rs
        (n.record (allocInode fs).1 hlt)) := by
  obtain ⟨hs₁, -, hnone, hmode, hblocks⟩ := h.stores.allocInode_fresh hne
  have hstores := h.stores.mkdir path habs hcwd hc hname n.nul_free n.length_le hroom hne
    (Nat.lt_trans hlt (by decide)) hb hclean
  rw [← hblocks] at hclean
  have hfresh : ∀ d q, Entry dirs d q → q.inode ≠ (allocInode fs).1 :=
    fun d q hq => h.entry_ne (mode_of_allocInode hne) hq
  -- first the directory, then its entry
  have h₁ := h.addDir hnone hfresh (hs₁.initDir_dir hnone hlt hmode hb hclean)
    fun d q hq => initDir_of_ne (hfresh d q hq)
  have hci : c ≠ (allocInode fs).1 := by
    rintro rfl
    rw [hnone] at hc
    cases hc
  have hc' : Function.update dirs (allocInode fs).1 (some []) c = some rs := by
    rw [Function.update_of_ne hci]
    exact hc
  have hdir := (hstores.dir (allocInode fs).1 []
    (by rw [Dirs.put, Function.update_of_ne (Ne.symm hci), Function.update_self])).directory
  refine h₁.put hc' hstores (fun d q hq => ?_) (fun q hq => name_ne_of_look hc hnew hq) ⟨n, rfl⟩
    (fun d q hq => hfresh d q ((entry_update_nil hnone).1 hq)) ⟨h.two_le_allocInode hne, ?_⟩ ?_
  · have hq' := hfresh d q ((entry_update_nil hnone).1 hq)
    rw [initDir_of_ne hq']
    exact abyssfsMkdir_of_ne hq' _ _
  · rw [EntryName.record_inode]
    intro hzero
    rw [hzero] at hdir
    exact hdir rfl
  · rw [EntryName.record_inode, Function.update_self]
    exact iff_of_true hdir rfl

/-- A creation that fails keeps the tree. -/
theorem allocInode (h : WellFormed fs dirs) : WellFormed (OsArm.allocInode fs).2 dirs := by
  rcases h.stores.allocInode with hnone | ⟨i, hi, hpos, -, -, hstores⟩
  · rw [hnone]
    exact h
  · have hne : (OsArm.allocInode fs).1 ≠ 0 := by
      rw [hi]
      dsimp only
      omega
    exact h.frame hstores fun d r hr => allocInode_of_ne (h.entry_ne (mode_of_allocInode hne) hr)

end WellFormed

end OsArm
