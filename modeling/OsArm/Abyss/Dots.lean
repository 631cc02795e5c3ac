import OsArm.Abyss.Appending
import OsArm.Abyss.Compositional
import OsArm.Abyss.Failures
import OsArm.Abyss.Growth

/-!
# `"."` and `".."` in a tree of directories

`abyssfs_mkdir` writes the inode of the root into every `".."`.

* `DotsDescribe` — `"."` is the directory itself and `".."` the directory that holds its entry.
* `MkdirInv` — what runs of `abyssfs_mkdir` keep: the state stores a tree whose entries are
  directories, and the blocks that are free are clean.
* `dotsDescribe_iff` — `"."` and `".."` describe the tree that a run has built if and only if all
  its directories were made in the root; `parent_of_nested` is one that was not.
-/

namespace OsArm

/-! ## The calls -/

/-- A call of `abyssfs_mkdir` by a process in `cwd`. -/
structure MkdirCall where
  cwd : VfsPath
  absolute : cwd.Absolute
  path : Str
  name : EntryName
  base : basename (path.dropWhile (· = slash)) = name.bytes

/-- The process is in an existing directory, and there is room in its block. -/
def MkdirCall.Fits (fs : AbyssFs) (call : MkdirCall) : Prop :=
  ∃ c, getInodeByPath fs call.cwd.bytes = some c ∧ IsDir fs c ∧
    ((listing fs c blockSize).map fun e => recSize e.name.length).sum +
      recSize call.name.bytes.length ≤ 4088

/-- Directories are made, in any existing directories. -/
def mkdirLts : Lts AbyssFs MkdirCall where
  step fs call fs' := call.Fits fs ∧ fs' = (abyssfsMkdir fs call.cwd.bytes call.path).2

/-- If there is space for it, the directory is made in the root. -/
def MkdirCall.InRoot (fs : AbyssFs) (call : MkdirCall) : Prop :=
  HasDirSpace fs → getInodeByPath fs call.cwd.bytes = some 1

/-- **`"."` and `".."` describe the tree.** -/
structure DotsDescribe (fs : AbyssFs) : Prop where
  self : ∀ d, IsDir fs d → entryInode fs d (str ['.']) = some d
  root : entryInode fs 1 (str ['.', '.']) = some 1
  /-- The entries of a directory stand behind its own two records. -/
  parent : ∀ c e, IsDir fs c → e ∈ (listing fs c blockSize).drop 2 → IsDir fs e.inode →
    entryInode fs e.inode (str ['.', '.']) = some c
  path : ∀ (p : Str) (n : EntryName) (d : Nat),
    (p ++ slash :: n.bytes ++ slash :: str ['.', '.']).length ≤ 255 →
    NulFree p → getInodeByPath fs (p ++ slash :: n.bytes) = some d → IsDir fs d →
    getInodeByPath fs (p ++ slash :: n.bytes ++ slash :: str ['.', '.']) = getInodeByPath fs p

/-! ## The invariant -/

/-- The state stores the directories `dirs`, the entries of which are directories, and what a new
directory is built over is clean in all free blocks. -/
structure MkdirInv (fs : AbyssFs) (dirs : Dirs) : Prop where
  stores : Stores fs dirs
  kind : ∀ n, IsDir fs n ↔ (dirs n).isSome
  entry : ∀ c r, Entry dirs c r → (dirs r.inode).isSome ∧ ∃ n : EntryName, n.bytes = r.name
  clean : ∀ b, b < totalBlocks → fs.blockBitmap.getLsbD b = false →
    recLen fs.blocks (b * blockSize + 256) = 0

namespace MkdirInv

variable {fs : AbyssFs} {dirs : Dirs} {c d e : Nat} {rs : List DirRecord} {name : Str}

/-- What a directory's name means. -/
theorem entryInode_eq (h : MkdirInv fs dirs) (hd : dirs d = some rs) (name : Str) :
    entryInode fs d name = look dirs d name := by
  rw [entryInode, if_neg (h.stores.getBlock_eq hd).1, h.stores.listing_blockSize hd, look, hd]
  rfl

theorem chainInode (h : MkdirInv fs dirs) (hd : dirs d = some rs) : ChainInode fs d := by
  have hdir := h.stores.dir d rs hd
  obtain ⟨fresh, hfresh, hchain, hstop⟩ := hdir.block.chain
  have hlen := hdir.block.span_lt hfresh
  refine Or.inr ⟨hdir.data.2, _, hchain, hstop, by unfold dirEntryFixedSize; omega, ?_⟩
  have hone : 1 < maxInodes := by decide
  exact List.forall_mem_cons.2 ⟨hdir.lt, List.forall_mem_cons.2 ⟨hone, hdir.inode_lt⟩⟩

/-- Names mean directories. -/
theorem isSome_of_look (h : MkdirInv fs dirs) (hlook : look dirs d name = some e) :
    (dirs e).isSome := by
  unfold look at hlook
  obtain ⟨rs, hd, hlook⟩ := Option.bind_eq_some_iff.1 hlook
  obtain ⟨x, hx, rfl⟩ := Option.map_eq_some_iff.1 hlook
  rcases List.mem_cons.1 (List.mem_of_find?_eq_some hx) with rfl | hx
  · rw [hd]
    rfl
  · rcases List.mem_cons.1 hx with rfl | hx
    · exact h.stores.root.1
    · obtain ⟨r, hr, rfl⟩ := List.mem_map.1 hx
      exact (h.entry d r (entry_of_mem hd hr)).1

theorem isSome_of_resolve (h : MkdirInv fs dirs) {ts : List Str} (hd : (dirs d).isSome)
    (hres : resolve dirs d ts = some e) : (dirs e).isSome := by
  induction ts generalizing d with
  | nil => rwa [← Option.some.inj hres]
  | cons t ts ih =>
    rw [resolve_cons] at hres
    obtain ⟨k, hlook, hres⟩ := Option.bind_eq_some_iff.1 hres
    exact ih (h.isSome_of_look hlook) hres

/-- The search from a directory on is what the components mean there. -/
theorem searchTokens_eq (h : MkdirInv fs dirs) (hd : (dirs d).isSome) {ts : List Str}
    (hnul : ∀ t ∈ ts, NulFree t) : (searchTokens fs d ts).1 = resolve dirs d ts := by
  induction ts generalizing d with
  | nil => rfl
  | cons t ts ih =>
    obtain ⟨rs, hrs⟩ := Option.isSome_iff_exists.1 hd
    have hfirst : (searchTokens fs d [t]).1 = look dirs d t := by
      rw [searchTokens_singleton (h.chainInode hrs) (hnul t List.mem_cons_self),
        h.entryInode_eq hrs]
    rw [← List.singleton_append, searchTokens_append, hfirst, List.singleton_append, resolve_cons]
    cases hlook : look dirs d t with
    | none => rfl
    | some e => exact ih (h.isSome_of_look hlook) fun u hu => hnul u (List.mem_cons_of_mem _ hu)

/-- A path leads where its components lead, or nowhere. -/
theorem getInodeByPath_eq (h : MkdirInv fs dirs) {path : Str} (hnul : NulFree path)
    (hlen : path.length ≤ 255) : getInodeByPath fs path = resolve dirs 1 (tokens path) := by
  rw [getInodeByPath_search, components_of_length_le hlen]
  exact h.searchTokens_eq h.stores.root.1 fun t ht hmem => hnul (mem_of_mem_tokens ht hmem)

/-- The two records of a directory. -/
theorem look_dots (hd : dirs d = some rs) :
    look dirs d (str ['.']) = some d ∧ look dirs d (str ['.', '.']) = some 1 := by
  unfold look
  rw [hd]
  exact ⟨rfl, rfl⟩

/-- An entry's inode is the one found by its name, or one before it. -/
theorem mem_of_look (hd : dirs d = some rs) (n : EntryName) (h : look dirs d n.bytes = some e) :
    ∃ r, Entry dirs d r ∧ r.inode = e := by
  unfold look at h
  rw [hd, Option.bind_some] at h
  obtain ⟨x, hx, rfl⟩ := Option.map_eq_some_iff.1 h
  have hname : x.name = n.bytes := by simpa using List.find?_some hx
  rcases List.mem_cons.1 (List.mem_of_find?_eq_some hx) with rfl | hx
  · exact absurd hname.symm n.ne_dot
  · rcases List.mem_cons.1 hx with rfl | hx
    · exact absurd hname.symm n.ne_dotdot
    · obtain ⟨r, hr, rfl⟩ := List.mem_map.1 hx
      exact ⟨r, entry_of_mem hd hr, rfl⟩

/-- The entries of a directory are what its listing shows behind the dots. -/
theorem mem_listing (h : MkdirInv fs dirs) (hd : dirs c = some rs) {x : Dirent} :
    x ∈ (listing fs c blockSize).drop 2 ↔ ∃ r ∈ rs, r.toDirent = x := by
  rw [h.stores.listing_blockSize hd]
  exact List.mem_map

/-- **A tree of depth one** is described by its dots. -/
theorem describes (h : MkdirInv fs dirs) (hroot : ∀ c r, Entry dirs c r → c = 1) :
    DotsDescribe fs where
  self d hd := by
    obtain ⟨rs, hrs⟩ := Option.isSome_iff_exists.1 ((h.kind d).1 hd)
    rw [h.entryInode_eq hrs]
    exact (look_dots hrs).1
  root := by
    obtain ⟨rs, hrs⟩ := Option.isSome_iff_exists.1 h.stores.root.1
    rw [h.entryInode_eq hrs]
    exact (look_dots hrs).2
  parent c x hc hx hdir := by
    obtain ⟨rs, hrs⟩ := Option.isSome_iff_exists.1 ((h.kind c).1 hc)
    obtain ⟨qs, hqs⟩ := Option.isSome_iff_exists.1 ((h.kind x.inode).1 hdir)
    obtain ⟨r, hr, -⟩ := (h.mem_listing hrs).1 hx
    rw [h.entryInode_eq hqs, (look_dots hqs).2, hroot c r (entry_of_mem hrs hr)]
  path p n d hlen hnul hpath hdir := by
    have hnulDots : NulFree (str ['.', '.']) := by unfold NulFree; decide
    have hgood : ∀ q : Str, q.length ≤ 255 → NulFree q → ∀ k, getInodeByPath fs q = some k →
        (dirs k).isSome := by
      intro q hq hqn k hk
      rw [h.getInodeByPath_eq hqn hq] at hk
      exact h.isSome_of_resolve h.stores.root.1 hk
    have hlen' : (p ++ slash :: n.bytes).length ≤ 255 := by
      rw [List.length_append] at hlen
      omega
    have hlen'' : p.length ≤ 255 := by
      rw [List.length_append] at hlen'
      omega
    obtain ⟨rs, hrs⟩ := Option.isSome_iff_exists.1 ((h.kind d).1 hdir)
    rw [getInodeByPath_snoc hlen (by decide) (by decide) hnulDots, hpath, Option.bind_some,
      h.entryInode_eq hrs, (look_dots hrs).2]
    · -- the directory above has an entry, so it is the root
      rw [getInodeByPath_snoc hlen' n.nonempty n.no_slash n.nul_free] at hpath
      · obtain ⟨c, hc, hentry⟩ := Option.bind_eq_some_iff.1 hpath
        obtain ⟨qs, hqs⟩ := Option.isSome_iff_exists.1 (hgood p hlen'' hnul c hc)
        rw [h.entryInode_eq hqs] at hentry
        obtain ⟨r, hr, -⟩ := mem_of_look hqs n hentry
        rw [hc, hroot c r hr]
      · intro k hk
        obtain ⟨qs, hqs⟩ := Option.isSome_iff_exists.1 (hgood p hlen'' hnul k hk)
        exact h.chainInode hqs
    · intro k hk
      rw [hpath] at hk
      rw [← Option.some.inj hk]
      exact h.chainInode hrs

/-- A directory that is not made in the root is not described. -/
theorem not_describes (h : MkdirInv fs dirs) {r : DirRecord} (hr : Entry dirs c r) (hc : c ≠ 1) :
    ¬ DotsDescribe fs := by
  intro hdots
  obtain ⟨qs, hqs⟩ := Option.isSome_iff_exists.1 (h.entry c r hr).1
  obtain ⟨rs, hrs, hmem⟩ := hr
  have hparent := hdots.parent c r.toDirent ((h.kind c).2 (by rw [hrs]; rfl))
    ((h.mem_listing hrs).2 ⟨r, hmem, rfl⟩) ((h.kind _).2 (by
      rw [show r.toDirent.inode = r.inode from rfl, hqs]
      rfl))
  rw [show r.toDirent.inode = r.inode from rfl, h.entryInode_eq hqs, (look_dots hqs).2,
    Option.some.injEq] at hparent
  exact hc hparent.symm

/-- The root has no entries at the start. -/
theorem not_entry_init (c : Nat) (r : DirRecord) :
    ¬ Entry (fun d => if d = 1 then some [] else none) c r := by
  rintro ⟨rs, hd, hr⟩
  dsimp only at hd
  split at hd
  · rw [← Option.some.inj hd] at hr
    exact absurd hr List.not_mem_nil
  · cases hd

/-- `abyssfs_init` builds the root, and all other blocks are clean. -/
theorem init (m : ByteMem) :
    MkdirInv (abyssfsInit m) (fun d => if d = 1 then some [] else none) where
  stores := stores_init m
  kind := by
    intro n
    by_cases hn : n = 1
    · subst hn
      exact iff_of_true
        (by unfold IsDir; exact (by decide : (0x4000 : BitVec 32) &&& 0x4000 ≠ 0)) rfl
    · have hnode : (abyssfsInit m).inodes n = Inode.zero := if_neg hn
      rw [IsDir, hnode, if_neg hn]
      exact iff_of_false (by decide) (by simp)
  entry c r hr := absurd hr (not_entry_init c r)
  clean := by
    intro b hb hfree
    have hten : rootBlock < b := (rootInv_init m).own.root_lt_of_free hfree
    have hlow : rootBlock * blockSize + 20 ≤ b * blockSize + 256 + 5 := by
      have := Nat.mul_le_mul_right blockSize (Nat.le_of_lt hten)
      omega
    have hhigh : b * blockSize + blockSize ≤ blockSize * totalBlocks := by
      rw [Nat.mul_comm blockSize, ← Nat.succ_mul]
      exact Nat.mul_le_mul_right _ hb
    have hsize : 261 < blockSize := by decide
    rw [recLen]
    simp only [abyssfsInit]
    rw [putDots_outside (Or.inr hlow), memset_eq, ByteMem.blit_inside (Nat.zero_le _) (by omega)]
    rfl

/-- The dots of a directory take 20 bytes. -/
theorem sum_dirents (h : DirBlock fs.blocks c d rs) :
    ((dirents d rs).map fun e => recSize e.name.length).sum = 20 + dirFormat.span rs := by
  have hspan : dirFormat.span rs = (rs.map fun r => recSize r.name.length).sum := by
    rw [RecordFormat.span]
    exact congrArg List.sum (List.map_congr_left fun r hr => (h.exact r hr).2)
  have hdots : recSize (str ['.']).length = 8 ∧ recSize (str ['.', '.']).length = 12 := ⟨rfl, rfl⟩
  simp only [dirents, List.map_cons, List.map_map, List.sum_cons, hdots, hspan]
  rw [← Nat.add_assoc]
  rfl

/-- A failed call keeps the tree. -/
theorem allocInode (h : MkdirInv fs dirs) : MkdirInv (OsArm.allocInode fs).2 dirs := by
  rcases h.stores.allocInode with hnone | ⟨i, hi, -, -, hfree, hstores⟩
  · rw [hnone]
    exact h
  · refine ⟨hstores, ?_, h.entry, ?_⟩
    · intro n
      by_cases hn : n = i
      · rw [hn, hi, hfree, IsDir, setInode_self]
        exact iff_of_false (by decide) (by simp)
      · rw [hi, IsDir, setInode_of_ne hn]
        exact h.kind n
    · intro b hb hbit
      rw [allocInode_bitmap] at hbit
      rw [hi]
      exact h.clean b hb hbit

/-- What a new directory is built over is clean. -/
theorem clean_allocBlock (h : MkdirInv fs dirs) (hb : (allocBlock (OsArm.allocInode fs).2).1 ≠ 0) :
    recLen fs.blocks ((allocBlock (OsArm.allocInode fs).2).1 * blockSize + 256) = 0 := by
  rcases allocBlock_spec (OsArm.allocInode fs).2 with hzero | ⟨b, hb', -, hb64, hfree, -⟩
  · rw [hzero] at hb
    exact absurd rfl hb
  · rw [allocInode_bitmap] at hfree
    rw [hb']
    exact h.clean b hb64 hfree

/-- With a new directory there is one more. -/
theorem isSome_update_nil {i : Nat} :
    (Function.update dirs i (some []) d).isSome ↔ d = i ∨ (dirs d).isSome := by
  by_cases hd : d = i
  · rw [hd, Function.update_self]
    exact iff_of_true rfl (Or.inl rfl)
  · rw [Function.update_of_ne hd]
    exact (or_iff_right hd).symm

/-- The byte of a block that has to be clean is in no other block. -/
theorem clean_outside {j k : Nat} (hne : k ≠ j) : k * blockSize + 256 + 5 < j * blockSize ∨
    j * blockSize + blockSize ≤ k * blockSize + 256 + 5 := by
  by_contra hin
  rw [not_or, Nat.not_lt, Nat.not_le] at hin
  have hsize : 261 < blockSize := by decide
  have hlow : k * blockSize ≤ k * blockSize + 256 + 5 := by omega
  exact Stores.blocks_disjoint hne hlow (by omega) hin.1 hin.2 rfl

/-- **One call.**  It fails and keeps the tree, or it succeeds and makes a directory where the
process is. -/
theorem step (h : MkdirInv fs dirs) {call : MkdirCall} (hfits : call.Fits fs) :
    ¬ HasDirSpace fs ∧ (abyssfsMkdir fs call.cwd.bytes call.path).1 = -1 ∧
        MkdirInv (abyssfsMkdir fs call.cwd.bytes call.path).2 dirs ∨
      HasDirSpace fs ∧ (abyssfsMkdir fs call.cwd.bytes call.path).1 = 0 ∧ ∃ dirs' c r,
        MkdirInv (abyssfsMkdir fs call.cwd.bytes call.path).2 dirs' ∧
        getInodeByPath fs call.cwd.bytes = some c ∧
        ∀ d q, Entry dirs' d q ↔ Entry dirs d q ∨ d = c ∧ q = r := by
  obtain ⟨c, hpath, hdir, hroom⟩ := hfits
  obtain ⟨rs, hrs⟩ := Option.isSome_iff_exists.1 ((h.kind c).1 hdir)
  have hlead : call.cwd.Leads dirs c := by
    rw [h.getInodeByPath_eq call.cwd.nul_free (Nat.le_of_lt_succ call.cwd.length_lt)] at hpath
    exact hpath
  rw [h.stores.listing_blockSize hrs, sum_dirents (h.stores.dir c rs hrs).block] at hroom
  by_cases hne : (OsArm.allocInode fs).1 = 0
  · rw [abyssfsMkdir_of_zero hne]
    exact Or.inl ⟨fun hspace => hspace.1 hne, rfl, h⟩
  by_cases hb : (allocBlock (OsArm.allocInode fs).2).1 = 0
  · have hcall : abyssfsMkdir fs call.cwd.bytes call.path = (-1, (OsArm.allocInode fs).2) := by
      simp only [abyssfsMkdir, if_neg hne, allocBlock_eq_of_zero hb, if_true]
    rw [hcall]
    exact Or.inl ⟨fun hspace => hspace.2 hb, rfl, h.allocInode⟩
  refine Or.inr ?_
  obtain ⟨h₁, hlt, hnone, hmode, hblocks⟩ := h.stores.allocInode_fresh hne
  obtain ⟨i, hi⟩ : ∃ i, i = (OsArm.allocInode fs).1 := ⟨_, rfl⟩
  rcases allocBlock_spec (OsArm.allocInode fs).2 with hzero | ⟨b, hb', -, hb64, -, hkeep, -, hbits⟩
  · rw [hzero] at hb
    exact absurd rfl hb
  have hclean : recLen (OsArm.allocInode fs).2.blocks
      ((allocBlock (OsArm.allocInode fs).2).1 * blockSize + 256) = 0 := by
    rw [hblocks]
    exact h.clean_allocBlock hb
  have h₂ := h₁.initDir hnone hb
  have h₃ := h₁.initDir_dir hnone hlt hmode hb hclean
  have hci : c ≠ i := by
    rintro rfl
    rw [← hi, hrs] at hnone
    cases hnone
  have hbase : basename call.name.bytes = call.name.bytes := call.name.basename_eq
  have hi32 : (OsArm.allocInode fs).1 < 2 ^ 32 := allocInode_lt fs
  obtain ⟨hret, hinodes, hbitmap, hout, hstores⟩ :=
    h₃.createFile call.name.bytes (h₂.createDir_eq call.absolute hlead)
      (by rw [← hi, Function.update_of_ne hci]; exact hrs) (by rw [hbase]; exact call.name.nul_free)
      (by rw [hbase]; exact call.name.length_le) hi32 hlt (by rwa [hbase])
  have hcall := abyssfsMkdir_eq hne hb call.base hret
  have hc' : Function.update dirs (OsArm.allocInode fs).1 (some []) c = some rs := by
    rw [← hi, Function.update_of_ne hci]
    exact hrs
  obtain ⟨r, hr⟩ : ∃ r, r = entryRecord (basename call.name.bytes) (OsArm.allocInode fs).1
    (by rw [hbase]; exact call.name.nul_free) (by rw [hbase]; exact call.name.length_le) hi32 :=
    ⟨_, rfl⟩
  rw [← hr] at hstores
  have hentry : ∀ d q, Entry
    (Dirs.put (Function.update dirs (OsArm.allocInode fs).1 (some [])) c rs r)
      d q ↔ Entry dirs d q ∨ d = c ∧ q = r := by
    intro d q
    rw [entry_put hc', entry_update_nil hnone]
  have hsome : ∀ d, (Dirs.put (Function.update dirs (OsArm.allocInode fs).1 (some []))
    c rs r d).isSome ↔
      d = (OsArm.allocInode fs).1 ∨ (dirs d).isSome := by
    intro d
    rw [isSome_put hc', isSome_update_nil]
  rw [hcall]
  refine ⟨⟨hne, hb⟩, rfl,
    Dirs.put (Function.update dirs (OsArm.allocInode fs).1 (some [])) c rs r, c, r,
    ⟨hstores, ?_, ?_, ?_⟩, hpath, hentry⟩
  · intro n
    rw [hsome]
    by_cases hn : n = (OsArm.allocInode fs).1
    · obtain ⟨qs, hqs⟩ := Option.isSome_iff_exists.1 ((hsome n).2 (Or.inl hn))
      exact iff_of_true (hstores.dir n qs hqs).directory (Or.inl hn)
    · rw [IsDir, hinodes, initDir_of_ne hn]
      exact (h.kind n).trans ⟨Or.inr, fun hor => hor.resolve_left hn⟩
  · intro d q hq
    rw [hsome]
    rcases (hentry d q).1 hq with hold | ⟨-, rfl⟩
    · exact ⟨Or.inr (h.entry d q hold).1, (h.entry d q hold).2⟩
    · rw [hr]
      exact ⟨Or.inl rfl, call.name, hbase.symm⟩
  · intro k hk hbit
    -- a block that is free now was free, and neither of the two blocks written to
    rw [hbitmap] at hbit
    simp only [OsArm.initDir, setInode_bitmap, hbits] at hbit
    rw [BitSet.getLsbD_or_bit (by rwa [totalBlocks] at hb64), Bool.or_eq_false_iff,
      allocInode_bitmap] at hbit
    have htaken := (h.stores.dir c rs hrs).taken
    have hkc : k ≠ (fs.inodes c).blocks := by
      rintro rfl
      rw [hbit.1] at htaken
      cases htaken
    have hkb : k ≠ b := by simpa using hbit.2
    have hsame : (initDir (allocBlock (OsArm.allocInode fs).2).2 (OsArm.allocInode fs).1
        (allocBlock (OsArm.allocInode fs).2).1).inodes c = fs.inodes c :=
      initDir_of_ne (by rw [← hi]; exact hci)
    have hsize : 261 < blockSize := by decide
    have hdots := clean_outside hkb
    rw [recLen, hout _ (by rw [hsame]; exact clean_outside hkc)]
    simp only [OsArm.initDir, setInode_blocks, hkeep, hblocks, hb']
    rw [putDots_outside (hdots.imp_right fun hle => by omega)]
    exact h.clean k hk hbit.1

/-- Every call keeps the invariant. -/
theorem exists_of_step {call : MkdirCall} {fs' : AbyssFs} (h : MkdirInv fs dirs)
    (hstep : mkdirLts.step fs call fs') : ∃ dirs', MkdirInv fs' dirs' := by
  obtain ⟨hfits, rfl⟩ := hstep
  rcases h.step hfits with ⟨-, -, hinv⟩ | ⟨-, -, dirs', -, -, hinv, -⟩
  · exact ⟨dirs, hinv⟩
  · exact ⟨dirs', hinv⟩

end MkdirInv

/-! ## The runs -/

/-- **`"."` and `".."` describe the tree** that a run has built if and only if all directories that
it has made were made in the root. -/
theorem dotsDescribe_iff {m : ByteMem} {tr : List MkdirCall} {fs : AbyssFs}
    (hrun : mkdirLts.Run (abyssfsInit m) tr fs) :
    DotsDescribe fs ↔
      (mkdirLts.only fun fs call _ => call.InRoot fs).Run (abyssfsInit m) tr fs := by
  constructor
  · -- either all were made in the root, or there is an entry elsewhere, for good
    have hcases : ∃ dirs, MkdirInv fs dirs ∧
        ((mkdirLts.only fun fs call _ => call.InRoot fs).Run (abyssfsInit m) tr fs ∨
          ∃ c r, Entry dirs c r ∧ c ≠ 1) := by
      induction hrun with
      | nil => exact ⟨_, MkdirInv.init m, Or.inl .nil⟩
      | snoc _ hstep ih =>
        obtain ⟨dirs, hinv, hor⟩ := ih
        obtain ⟨hfits, rfl⟩ := hstep
        rcases hinv.step hfits with ⟨hfull, -, hinv'⟩ | ⟨-, -, dirs', c, r, hinv', hpath, hentry⟩
        · exact ⟨dirs, hinv', hor.imp_left fun hrun =>
            hrun.snoc ⟨⟨hfits, rfl⟩, fun hspace => absurd hspace hfull⟩⟩
        · refine ⟨dirs', hinv', ?_⟩
          rcases hor with hrun | ⟨c₀, r₀, hold, hne⟩
          · by_cases hc : c = 1
            · exact Or.inl (hrun.snoc ⟨⟨hfits, rfl⟩, fun _ => by rw [hpath, hc]⟩)
            · exact Or.inr ⟨c, r, (hentry c r).2 (Or.inr ⟨rfl, rfl⟩), hc⟩
          · exact Or.inr ⟨c₀, r₀, (hentry c₀ r₀).2 (Or.inl hold), hne⟩
    intro hdots
    obtain ⟨dirs, hinv, hrun' | ⟨c, r, hr, hc⟩⟩ := hcases
    · exact hrun'
    · exact absurd hdots (hinv.not_describes hr hc)
  · intro hrun'
    have hinv : ∃ dirs, MkdirInv fs dirs ∧ ∀ c r, Entry dirs c r → c = 1 := by
      refine hrun'.invariant
        (P := fun fs => ∃ dirs, MkdirInv fs dirs ∧ ∀ c r, Entry dirs c r → c = 1)
        ?_ ⟨_, MkdirInv.init m, fun c r hr => absurd hr (MkdirInv.not_entry_init c r)⟩
      rintro fs call u ⟨dirs, hinv, hroot⟩ ⟨⟨hfits, rfl⟩, hcall⟩
      rcases hinv.step hfits with ⟨-, -, hinv'⟩ | ⟨hspace, -, dirs', c, r, hinv', hpath, hentry⟩
      · exact ⟨dirs, hinv', hroot⟩
      · have hc := hcall hspace
        rw [hpath, Option.some.injEq] at hc
        refine ⟨dirs', hinv', ?_⟩
        intro d q hq
        rcases (hentry d q).1 hq with hold | ⟨hd, -⟩
        · exact hroot d q hold
        · rw [hd, hc]
    obtain ⟨dirs, hinv, hroot⟩ := hinv
    exact hinv.describes hroot

/-! ## A directory in a directory -/

/-- The bitmap after `abyssfs_mkdir`, with an inode and a block. -/
theorem abyssfsMkdir_bitmap {fs : AbyssFs} {cwd path : Str} (hi : (allocInode fs).1 ≠ 0)
    (hb : (allocBlock (allocInode fs).2).1 ≠ 0) :
    (abyssfsMkdir fs cwd path).2.blockBitmap = (allocBlock (allocInode fs).2).2.blockBitmap := by
  unfold abyssfsMkdir
  dsimp only
  rw [if_neg hi, if_neg hb]
  split <;> exact createFile_bitmap _ _ _ _

theorem allocBlock_withA : (allocBlock (allocInode withA).2).1 ≠ 0 := by
  have hi : (allocInode (abyssfsInit fun _ => 0)).1 ≠ 0 := by
    rw [allocInode_init]
    decide
  have hb : (allocBlock (allocInode (abyssfsInit fun _ => 0)).2).1 ≠ 0 := by
    rw [allocBlock_init]
    decide
  have hbitmap : withA.blockBitmap =
      (allocBlock (abyssfsInit fun _ => 0)).2.blockBitmap := by
    rw [withA, mkdirIn_eq, abyssfsMkdir_bitmap hi hb]
    rfl
  rw [allocBlock_congr ((allocInode_bitmap withA).trans hbitmap)]
  decide

/-- `abyssfs_mkdir("/a")` in the root, and `abyssfs_mkdir("/a/a")` in `/a`. -/
def makeA : MkdirCall where
  cwd := rootPath
  absolute := rootPath_absolute
  path := pathA.bytes
  name := nameA
  base := rfl

/-- The second call. -/
def makeAA : MkdirCall where
  cwd := pathA
  absolute := pathA_absolute
  path := pathAA.bytes
  name := nameA
  base := rfl

theorem makeA_fits : makeA.Fits (abyssfsInit fun _ => 0) := by
  have hstores := stores_init fun _ => 0
  have hroot : (fun d : Nat => if d = 1 then some ([] : List DirRecord) else none) 1 =
    some [] := rfl
  refine ⟨1, rfl, ((MkdirInv.init fun _ => 0).kind 1).2 rfl, ?_⟩
  rw [hstores.listing_blockSize hroot, MkdirInv.sum_dirents (hstores.dir 1 [] hroot).block]
  decide

theorem makeAA_fits : makeAA.Fits withA := by
  refine ⟨2, stores_withA.getInodeByPath_path pathA_leads,
    (stores_withA.dir 2 [] dirsA_two).directory, ?_⟩
  rw [stores_withA.listing_blockSize dirsA_two,
    MkdirInv.sum_dirents (stores_withA.dir 2 [] dirsA_two).block]
  decide

theorem makeA_step : mkdirLts.step (abyssfsInit fun _ => 0) makeA withA :=
  ⟨makeA_fits, mkdirIn_eq _ rootPath pathA⟩

/-- **`"/a/a/.."` is the root** and not `"/a"`. -/
theorem parent_of_nested :
    mkdirLts.Run (abyssfsInit fun _ => 0) [makeA, makeAA] (mkdirIn withA pathA pathAA) ∧
      getInodeByPath (mkdirIn withA pathA pathAA) (str ['/', 'a']) = some 2 ∧
      getInodeByPath (mkdirIn withA pathA pathAA)
        (str ['/', 'a', '/', 'a', '/', '.', '.']) = some 1 ∧
      ¬ DotsDescribe (mkdirIn withA pathA pathAA) := by
  have hsecond : mkdirLts.step withA makeAA (mkdirIn withA pathA pathAA) :=
    ⟨makeAA_fits, mkdirIn_eq _ pathA pathAA⟩
  have hrun : mkdirLts.Run (abyssfsInit fun _ => 0) ([] ++ [makeA] ++ [makeAA])
      (mkdirIn withA pathA pathAA) := (Lts.Run.nil.snoc makeA_step).snoc hsecond
  obtain ⟨i, hi⟩ : ∃ i, i = (allocInode withA).1 := ⟨_, rfl⟩
  obtain ⟨-, hlt, hnone, -, -⟩ := stores_withA.allocInode_fresh allocInode_withA
  rw [← hi] at hlt hnone
  have hi1 : (1 : Nat) ≠ i := by
    rintro rfl
    cases hnone
  have hi2 : i ≠ 2 := by
    rintro rfl
    cases hnone
  obtain ⟨dirs₁, hinv⟩ := (MkdirInv.init fun _ => 0).exists_of_step makeA_step
  have hclean := hinv.clean_allocBlock allocBlock_withA
  have hname : basename (pathAA.bytes.dropWhile (· = slash)) = nameA.bytes := rfl
  have hstores := stores_withA.mkdir pathAA.bytes pathA_absolute pathA_leads dirsA_two hname
    nameA.nul_free nameA.length_le (by decide) allocInode_withA
      (allocInode_lt withA) allocBlock_withA
    hclean
  rw [← mkdirIn_eq] at hstores
  obtain ⟨r, hr⟩ : ∃ r, r = entryRecord nameA.bytes (allocInode withA).1 nameA.nul_free
    nameA.length_le (allocInode_lt withA) := ⟨_, rfl⟩
  have hrname : r.name = nameA.bytes := by rw [hr, entryRecord_name]
  have hrinode : r.inode = i := by rw [hr, hi, entryRecord_inode]
  rw [← hr, ← hi] at hstores
  obtain ⟨dirs, hdirs⟩ : ∃ dirs, dirs = Dirs.put (Function.update dirsA i (some [])) 2 [] r :=
    ⟨_, rfl⟩
  rw [← hdirs] at hstores
  -- the three directories
  have h1 : dirs 1 = some [entryRecord nameA.bytes 2 nameA.nul_free nameA.length_le
      (by decide)] := by
    rw [hdirs, Dirs.put, Function.update_of_ne (by decide), Function.update_of_ne hi1]
    exact dirsA_one
  have h2 : dirs 2 = some [r] := by
    rw [hdirs, Dirs.put, Function.update_self]
    rfl
  have h3 : dirs i = some [] := by
    rw [hdirs, Dirs.put, Function.update_of_ne hi2, Function.update_self]
  have hlook₁ : look dirs 1 nameA.bytes = some 2 := by
    unfold look
    rw [h1]
    rfl
  have hlook₂ : look dirs 2 nameA.bytes = some i := by
    have hfind : (dirents 2 [r]).find? (·.name = nameA.bytes) = some r.toDirent := by
      have hr : r.toDirent.name = nameA.bytes := hrname
      have hdot : (str ['.']) ≠ nameA.bytes := Ne.symm nameA.ne_dot
      have hdotdot : (str ['.', '.']) ≠ nameA.bytes := Ne.symm nameA.ne_dotdot
      simp [dirents, hdot, hdotdot, hr]
    unfold look
    rw [h2, Option.bind_some, hfind]
    exact congrArg some hrinode
  have hlook₃ : look dirs i (str ['.', '.']) = some 1 := (MkdirInv.look_dots h3).2
  have hnul : NulFree (str ['/', 'a', '/', 'a', '/', '.', '.']) := by unfold NulFree; decide
  have hpath₁ : getInodeByPath (mkdirIn withA pathA pathAA) (str ['/', 'a']) = some 2 := by
    refine hstores.getInodeByPath_eq (by unfold NulFree; decide) (by decide) ?_
    rw [show tokens (str ['/', 'a']) = [nameA.bytes] from rfl, resolve_cons, hlook₁]
    rfl
  have hpath₂ : getInodeByPath (mkdirIn withA pathA pathAA)
      (str ['/', 'a', '/', 'a']) = some i := by
    refine hstores.getInodeByPath_eq (by unfold NulFree; decide) (by decide) ?_
    rw [show tokens (str ['/', 'a', '/', 'a']) = [nameA.bytes, nameA.bytes] from rfl,
      resolve_cons, hlook₁, Option.bind_some, resolve_cons, hlook₂]
    rfl
  have hpath₃ : getInodeByPath (mkdirIn withA pathA pathAA)
      (str ['/', 'a', '/', 'a', '/', '.', '.']) = some 1 := by
    refine hstores.getInodeByPath_eq hnul (by decide) ?_
    rw [show tokens (str ['/', 'a', '/', 'a', '/', '.', '.']) =
        [nameA.bytes, nameA.bytes, str ['.', '.']] from rfl, resolve_cons, hlook₁, Option.bind_some,
      resolve_cons, hlook₂, Option.bind_some, resolve_cons, hlook₃]
    rfl
  refine ⟨hrun, hpath₁, hpath₃, ?_⟩
  intro hdots
  have heq := hdots.path (str ['/', 'a']) nameA i (by decide) (by unfold NulFree; decide) hpath₂
    (hstores.dir i [] h3).directory
  rw [hpath₁] at heq
  have habs : some 1 = some 2 := hpath₃.symm.trans heq
  cases habs

/-- A directory in the root is described. -/
theorem dotsDescribe_iff_withA : DotsDescribe withA := by
  have hrun : mkdirLts.Run (abyssfsInit fun _ => 0) ([] ++ [makeA]) withA :=
    Lts.Run.nil.snoc makeA_step
  have hroot : makeA.InRoot (abyssfsInit fun _ => 0) := fun _ => rfl
  exact (dotsDescribe_iff hrun).2 (Lts.Run.nil.snoc ⟨makeA_step, hroot⟩)

end OsArm
