import OsArm.Abyss.Cwd
import OsArm.Ram.Paths
import OsArm.Vfs.Routing

/-!
# Sessions: descriptors over both file systems

Creating, opening, unlinking, writing and closing through the VFS, with any absolute paths shorter
than 32 bytes, as one transition system that remembers for which path each descriptor was
obtained.

* `FilePath.file` — the file that a path stands for: the path that RAMFS stores, or the name of an
  entry.
* `vfsLts` — the calls; a successful `unlink` is noted for the descriptors of the file.
* `SessionInv` — every descriptor whose file was not unlinked refers to its slot or its entry;
  `SessionInv.call` is the step and `session_invariant` the run.
-/

namespace OsArm

/-! ## Paths -/

/-- An absolute path, shorter than 32 bytes. -/
@[ext]
structure FilePath where
  bytes : Str
  absolute : bytes.head? = some slash
  short : bytes.length < maxPath
  nul_free : NulFree bytes

/-- A file: the path that its slot stores, or the name of its entry. -/
inductive FileName
  | slot (path : Str)
  | entry (name : Str)
  deriving DecidableEq

/-- What `ramfs_create` stores begins with `"/tmp/"`. -/
theorem ramfsFullPath_prefix (path : Str) : tmpSlash <+: ramfsFullPath path := by
  unfold ramfsFullPath
  split
  · exact List.prefix_append _ _
  · next h => exact strncmp_tmpSlash.1 (not_not.1 h)

theorem ramfsFullPath_of_prefix {path : Str} (h : tmpSlash <+: path) :
    ramfsFullPath path = path := by
  rw [ramfsFullPath, if_neg]
  exact fun hne => hne (strncmp_tmpSlash.2 h)

namespace FilePath

/-- The path as an argument of AbyssFS. -/
def arg (p : FilePath) : PathArg := { bytes := p.bytes, nul_free := p.nul_free }

/-- The file that `vfs_create` makes: in AbyssFS it has the last component for a name. -/
def file (p : FilePath) : FileName :=
  if tmpDir <+: p.bytes then .slot (ramfsFullPath p.bytes) else .entry (basename p.arg.strip)

variable {p : FilePath}

theorem file_ram (h : tmpDir <+: p.bytes) : p.file = .slot (ramfsFullPath p.bytes) := if_pos h

theorem file_abyss (h : ¬ tmpDir <+: p.bytes) : p.file = .entry (basename p.arg.strip) := if_neg h

/-- What begins with `"/tmp"` is RAMFS's to create and to unlink. -/
theorem targets_ram (h : tmpDir <+: p.bytes) (cwd : Str) :
    createTarget bootMounts cwd p.bytes = some (.ramfs, p.bytes) ∧
      unlinkTarget bootMounts cwd p.bytes = some (.ramfs, p.bytes) := by
  have hjoin : joinCwd cwd p.bytes = p.bytes := joinCwd_of_absolute p.absolute
  constructor
  · simp [createTarget, hjoin, map_findMount, findMount_boot, h]
  · simp [unlinkTarget, hjoin, map_findMount, findMount_boot, h]

/-- Everything else is AbyssFS's. -/
theorem targets_abyss (h : ¬ tmpDir <+: p.bytes) (cwd : Str) :
    createTarget bootMounts cwd p.bytes = some (.abyssfs, p.bytes) ∧
      unlinkTarget bootMounts cwd p.bytes = some (.abyssfs, p.bytes) := by
  have hall : AllSelect (Heap.mk 0) 0 cwd p.bytes .abyssfs p.bytes := allSelect_root p.absolute h
  exact ⟨hall.create, hall.unlink⟩

/-- `vfs_open` sends to RAMFS what begins with `"/tmp/"` only. -/
theorem openTarget_eq (p : FilePath) :
    openTarget [] p.bytes = (if tmpSlash <+: p.bytes then .ramfs else .abyssfs, p.bytes) := by
  have hcmp := strncmp_tmpSlash (s := p.bytes)
  rw [openTarget, resolvePath]
  simp only [hcmp]

theorem basename_nulFree (p : FilePath) : NulFree (basename p.arg.strip) := p.arg.basename_nulFree

theorem length_basename (p : FilePath) : (basename p.arg.strip).length < maxPath := by
  have hstrip : p.arg.strip.length ≤ p.bytes.length := (List.dropWhile_sublist _).length_le
  have hle : (basename p.arg.strip).length ≤ p.arg.strip.length := by
    rcases (basename_spec p.arg.strip).2 with heq | ⟨dir, heq⟩
    · rw [← heq]
    · conv_rhs => rw [heq]
      rw [List.length_append, List.length_cons]
      omega
  exact Nat.lt_of_le_of_lt (hle.trans hstrip) p.short

end FilePath

/-! ## The transition system -/

/-- A call on the VFS. -/
inductive VfsCall
  | create (p : FilePath)
  | openPath (p : FilePath)
  | unlink (p : FilePath)
  | write (fd : Nat) (buf : List UInt8)
  | close (fd : Nat)

/-- The VFS, and for each descriptor the path it was obtained for and whether the file of that
path was successfully unlinked since. -/
structure Session where
  v : Vfs
  origin : Nat → Option FilePath
  unlinked : Nat → Bool

namespace VfsCall

/-- A new descriptor gets the path it was obtained for. -/
def obtained (s : Session) (r : Int × Vfs) (p : FilePath) : Session where
  v := r.2
  origin := if r.1 < 0 then s.origin else Function.update s.origin r.1.toNat (some p)
  unlinked := if r.1 < 0 then s.unlinked else Function.update s.unlinked r.1.toNat false

/-- A successful `unlink` is noted for the descriptors of the file. -/
def noted (s : Session) (r : Int × Vfs) (p : FilePath) : Session where
  v := r.2
  origin := s.origin
  unlinked fd := s.unlinked fd || decide (r.1 = 0 ∧ (s.origin fd).map FilePath.file = some p.file)

/-- The state after a call. -/
def apply (s : Session) : VfsCall → Session
  | create p => obtained s (vfsCreate s.v p.bytes) p
  | openPath p => obtained s (vfsOpen s.v p.bytes) p
  | unlink p => noted s (vfsUnlink s.v p.bytes) p
  | write fd buf => { s with v := (vfsWrite s.v fd buf).2 }
  | close fd => { s with v := (vfsClose s.v fd).2 }

/-- What RAMFS stores is shorter than 32 bytes and the root block is not filled beyond 4088;
`"/."` and `"/.."` are not unlinked; buffers are no longer than memory. -/
def Allowed (v : Vfs) : VfsCall → Prop
  | create p =>
    if tmpDir <+: p.bytes then (ramfsFullPath p.bytes).length < maxPath
    else (RootCall.create p.arg).Fits v.abyss
  | unlink p => tmpDir <+: p.bytes ∨ (RootCall.unlink p.arg).Spares
  | write _ buf => buf.length + maxContent < 2 ^ 64
  | _ => True

end VfsCall

/-- Any order of allowed calls. -/
def vfsLts : Lts Session VfsCall where
  step s a t := a.Allowed s.v ∧ t = a.apply s

/-- After `vfs_init`, in a process whose directory is `cwd`. -/
def Session.init (m : ByteMem) (cwd : Str) : Session where
  v := vfsInit m cwd
  origin := fun _ => none
  unlinked := fun _ => false

/-! ## Handles and what they refer to -/

/-- A handle as `abyssfs_open` makes it; it has no file to lose. -/
def IsOpened (file : VfsFile) : Prop := file.fOps = .abyssfs ∧ file.privateData = 0

/-- The handle is on the file: on the slot of the path, or on the inode of an entry of the name. -/
def IsHandleOf (ram : RamFs) (rs : List DirRecord) (file : VfsFile) : FileName → Prop
  | .slot path => file.fOps = .ramfs ∧ NulFree path ∧ path.length < maxPath ∧
      HoldsPath ram file.privateData path
  | .entry name => file.fOps = .abyssfs ∧ ∃ r ∈ rs, r.inode = file.privateData ∧ r.name = name

/-- A handle of the table, obtained for the path `origin`. -/
structure HandleOk (ram : RamFs) (rs : List DirRecord) (origin : Option FilePath) (unlinked : Bool)
    (file : VfsFile) : Prop where
  position : file.fOps = .ramfs → file.fPos ≤ maxContent
  not_root : file.fOps = .abyssfs → file.privateData ≠ 1
  /-- As long as its file was not unlinked, the handle is on it. -/
  refers : unlinked = false → ∀ p ∈ origin, IsOpened file ∨ IsHandleOf ram rs file p.file

section HandleOk

variable {ram ram' : RamFs} {rs rs' : List DirRecord} {o : Option FilePath}
  {b : Bool} {file : VfsFile}

/-- More entries do no harm. -/
theorem HandleOk.mono (h : HandleOk ram rs o b file) (hrs : ∀ r ∈ rs, r ∈ rs') :
    HandleOk ram rs' o b file := by
  refine ⟨h.position, h.not_root, ?_⟩
  intro hb p hp
  refine (h.refers hb p hp).imp_right ?_
  cases p.file with
  | slot path => exact id
  | entry name =>
    rintro ⟨hops, r, hr, hinode, hname⟩
    exact ⟨hops, r, hrs r hr, hinode, hname⟩

/-- Changes to other slots, and to the content of this one, do no harm. -/
theorem HandleOk.frame (h : HandleOk ram rs o b file)
    (hram : ∀ i, (ram.files i).used = true →
      (ram'.files i).used = true ∧ ∀ x < maxPath, (ram'.files i).mem x = (ram.files i).mem x) :
    HandleOk ram' rs o b file := by
  refine ⟨h.position, h.not_root, ?_⟩
  intro hb p hp
  refine (h.refers hb p hp).imp_right ?_
  cases p.file with
  | entry name => exact id
  | slot path =>
    rintro ⟨hops, hnul, hlen, hused, hs⟩
    obtain ⟨hused', hmem⟩ := hram _ hused
    exact ⟨hops, hnul, hlen, hused', cstringAt_of_prefix hs hlen hmem⟩

/-- Nothing is asked of a handle whose file was unlinked. -/
theorem HandleOk.orphan (h : HandleOk ram rs o b file) : HandleOk ram' rs' o true file := by
  refine ⟨h.position, h.not_root, ?_⟩
  intro hb
  cases hb

/-- Filling a free slot does no harm. -/
theorem HandleOk.setFree (h : HandleOk ram rs o b file) {i : Nat} {f : RamfsFile}
    (hfree : (ram.files i).used = false) : HandleOk (ram.setFile i f) rs o b file := by
  refine h.frame ?_
  intro k hused
  have hki : k ≠ i := by
    rintro rfl
    rw [hfree] at hused
    cases hused
  rw [setFile_of_ne hki]
  exact ⟨hused, fun _ _ => rfl⟩

end HandleOk

/-! ## The invariant -/

/-- No file has a block to look into, and no handle can give it one. -/
structure Barren (v : Vfs) (rs : List DirRecord) : Prop where
  entries : ∀ r ∈ rs, (v.abyss.inodes r.inode).blocks = 0
  handles : ∀ fd file, v.fdTable fd = some file → file.fOps = .abyssfs → file.privateData = 0

/-- The paths that used slots store are shorter than 32 bytes. -/
def ShortPaths (ram : RamFs) : Prop :=
  ∀ i, (ram.files i).used = true →
    ∃ path, NulFree path ∧ path.length < maxPath ∧ (ram.files i).mem.CStringAt 0 path

theorem ShortPaths.setFile {ram : RamFs} {i : Nat} {f : RamfsFile} (h : ShortPaths ram)
    (hf : f.used = true → ∃ path, NulFree path ∧ path.length < maxPath ∧ f.mem.CStringAt 0 path) :
    ShortPaths (ram.setFile i f) := by
  intro k hk
  by_cases hki : k = i
  · rw [hki, setFile_self] at hk ⊢
    exact hf hk
  · rw [setFile_of_ne hki] at hk ⊢
    exact h k hk

/-- **The invariant of a session.** -/
structure SessionInv (s : Session) (rs : List DirRecord) : Prop where
  root : RootKept s.v.abyss rs
  mounts : s.v.mounts = bootMounts
  ns : s.v.ns = []
  cwd_nul : NulFree s.v.cwd
  /-- Files are created in the root, or not at all. -/
  cwd : StaysInRoot s.v.cwd ∨ ¬ StaysInRoot s.v.cwd ∧ Barren s.v rs
  slots : ShortPaths s.v.ram
  handles : ∀ fd file, s.v.fdTable fd = some file →
    HandleOk s.v.ram rs (s.origin fd) (s.unlinked fd) file

/-- `test_abyssfs` leaves an entry without a block. -/
theorem rootKept_testAbyssfs (m : ByteMem) :
    ∃ rs, RootKept (testAbyssfs (abyssfsInit m) [slash]) rs ∧
      ∀ r ∈ rs, ((testAbyssfs (abyssfsInit m) [slash]).inodes r.inode).blocks = 0 := by
  have hempty : ∀ i, i ≠ 1 → ((abyssfsInit m).inodes i).blocks = 0 := by
    intro i hi
    have hzero : (abyssfsInit m).inodes i = Inode.zero := if_neg hi
    rw [hzero]
    rfl
  rcases (rootInv_init m).kept.allocInode with hnone | ⟨i, hi, h2, hlt, -, hfresh, hinv⟩
  · have htwo : (allocInode (abyssfsInit m)).1 = 2 := by rfl
    rw [hnone] at htwo
    cases htwo
  · rw [hi] at hinv
    have htest : testAbyssfs (abyssfsInit m) [slash] = (createFile ((abyssfsInit m).setInode i
        { Inode.zero with mode := 0x1FF }) [slash]
          (str ['h', 'e', 'l', 'l', 'o', '.', 't', 'x', 't']) i).2 := by
      rw [testAbyssfs, hi]
    obtain ⟨-, hinodes, added, hkept, -⟩ := hinv.createFile
      (str ['h', 'e', 'l', 'l', 'o', '.', 't', 'x', 't']) (by unfold NulFree; decide) h2 hlt
      (inode_lt_two_pow hlt) (by rw [setInode_self]; simp) hfresh (by decide) (by decide)
    rw [htest]
    refine ⟨_, hkept, fun r hr => ?_⟩
    have hne : r.inode ≠ 1 := by
      have := (hkept.live r hr).1
      omega
    rw [hinodes]
    by_cases hri : r.inode = i
    · rw [hri, setInode_self]
      exact rfl
    · rw [setInode_of_ne hri]
      exact hempty _ hne

/-- `vfs_init` leaves the root with the entry of `test_abyssfs`, and no descriptors. -/
theorem sessionInv_init (m : ByteMem) {cwd : Str} (hcwd : NulFree cwd) :
    ∃ rs, SessionInv (Session.init m cwd) rs := by
  obtain ⟨rs, hroot, hempty⟩ := rootKept_testAbyssfs m
  have habyss : (Session.init m cwd).v.abyss = testAbyssfs (abyssfsInit m) [slash] := by
    rw [Session.init, vfsInit]
  have hnone : ∀ fd file, (Session.init m cwd).v.fdTable fd ≠ some file := by
    intro fd file hfile
    cases hfile
  have hslots : ShortPaths (Session.init m cwd).v.ram := by
    intro i hi
    cases hi
  rw [← habyss] at hroot hempty
  refine ⟨rs, hroot, rfl, rfl, hcwd, ?_, hslots, fun fd file hfile => absurd hfile (hnone fd file)⟩
  by_cases hstays : StaysInRoot cwd
  · exact Or.inl hstays
  · exact Or.inr ⟨hstays, hempty, fun fd file hfile => absurd hfile (hnone fd file)⟩

namespace SessionInv

variable {s : Session} {rs : List DirRecord} {p : FilePath}

/-- A new descriptor, for a handle on the file of its path. -/
theorem alloc {v' : Vfs} {file : VfsFile} (h : SessionInv { s with v := v' } rs)
    (hfile : HandleOk v'.ram rs (some p) false file)
    (hcwd : StaysInRoot v'.cwd ∨ (file.fOps = .abyssfs → file.privateData = 0)) :
    SessionInv (VfsCall.obtained s (allocFd v' file) p) rs := by
  unfold allocFd
  split
  · exact h
  · have hfd : ¬ ((v'.nextFd : Int) < 0) := by omega
    have hnat : (v'.nextFd : Int).toNat = v'.nextFd := Int.toNat_natCast _
    simp only [VfsCall.obtained, if_neg hfd, hnat]
    refine ⟨h.root, h.mounts, h.ns, h.cwd_nul, ?_, h.slots, ?_⟩
    · refine h.cwd.imp_right ?_
      rintro ⟨hstays, hbarren⟩
      refine ⟨hstays, hbarren.entries, ?_⟩
      intro fd g hg
      dsimp only at hg
      split at hg
      · rw [← Option.some.inj hg]
        exact hcwd.resolve_left hstays
      · exact hbarren.handles fd g hg
    · intro fd g hg
      dsimp only at hg ⊢
      by_cases hk : fd = v'.nextFd
      · rw [if_pos hk, Option.some_inj] at hg
        rw [hk, Function.update_self, Function.update_self, ← hg]
        exact hfile
      · rw [if_neg hk] at hg
        rw [Function.update_of_ne hk, Function.update_of_ne hk]
        exact h.handles fd g hg

/-- A call that makes no descriptor. -/
theorem fail {v' : Vfs} (h : SessionInv { s with v := v' } rs) :
    SessionInv (VfsCall.obtained s (-1, v') p) rs := h

/-- RAMFS and the heap have no part in the root directory. -/
theorem setRam (h : SessionInv s rs) {heap : Heap} {ram : RamFs} (hslots : ShortPaths ram)
    (hhandles : ∀ o b file, HandleOk s.v.ram rs o b file → HandleOk ram rs o b file) :
    SessionInv { s with v := { s.v with heap := heap, ram := ram } } rs :=
  ⟨h.root, h.mounts, h.ns, h.cwd_nul, h.cwd.imp_right fun hb => ⟨hb.1, hb.2.entries, hb.2.handles⟩,
    hslots, fun fd file hfile => hhandles _ _ _ (h.handles fd file hfile)⟩

/-- `vfs_create` in RAMFS. -/
theorem create_ram (h : SessionInv s rs) (hp : tmpDir <+: p.bytes)
    (hlen : (ramfsFullPath p.bytes).length < maxPath) :
    SessionInv (VfsCall.obtained s (vfsCreate s.v p.bytes) p) rs := by
  have htarget : createTarget s.v.mounts s.v.cwd p.bytes = some (.ramfs, p.bytes) := by
    rw [h.mounts]
    exact (FilePath.targets_ram hp s.v.cwd).1
  unfold vfsCreate
  simp only [htarget]
  unfold ramfsCreate
  cases hfree : findFree s.v.ram with
  | none => exact fail (h.setRam h.slots fun _ _ _ => id)
  | some i =>
    obtain ⟨hi, hunused⟩ := findFree_eq_some hfree
    have hstored : ((strcpy (s.v.ram.files i).mem 0 (ramfsFullPath p.bytes)).set
      contentOff 0).CStringAt 0
        (ramfsFullPath p.bytes) := by
      refine cstringAt_of_prefix (cstringAt_strcpy (s.v.ram.files i).mem 0 _) hlen ?_
      intro x hx
      exact ByteMem.set_of_ne (by rw [contentOff]; omega)
    have hslots := fun size used => h.slots.setFile (i := i) (f := RamfsFile.mk _ size used)
      fun _ => ⟨_, nulFree_fullPath p.nul_free, hlen, hstored⟩
    cases hheap : kalloc s.v.heap sizeofVfsFile with
    | none => exact fail (h.setRam (hslots _ _) fun _ _ _ hok => hok.setFree hunused)
    | some r =>
      dsimp only
      refine alloc (h.setRam (hslots _ _) fun _ _ _ hok => hok.setFree hunused)
        ⟨fun _ => Nat.zero_le _, ?_, ?_⟩ (Or.inr ?_)
      · intro hops
        cases hops
      · intro _ q hq
        rw [← Option.mem_some_iff.1 hq, FilePath.file_ram hp]
        refine Or.inr ⟨rfl, nulFree_fullPath p.nul_free, hlen, ?_⟩
        dsimp only
        rw [HoldsPath, setFile_self]
        exact ⟨rfl, hstored⟩
      · intro hops
        cases hops

/-- AbyssFS has no part in the slots; the heap matters to neither. -/
theorem setAbyss {rs' : List DirRecord} (h : SessionInv s rs) {heap : Heap} {fs : AbyssFs}
    (hroot : RootKept fs rs') (hsub : ∀ r ∈ rs, r ∈ rs')
    (hcwd : StaysInRoot s.v.cwd ∨ ∀ r ∈ rs', (fs.inodes r.inode).blocks = 0) :
    SessionInv { s with v := { s.v with heap := heap, abyss := fs } } rs' := by
  refine ⟨hroot, h.mounts, h.ns, h.cwd_nul, ?_, h.slots,
    fun fd file hfile => (h.handles fd file hfile).mono hsub⟩
  refine h.cwd.imp_right ?_
  rintro ⟨hstays, hbarren⟩
  exact ⟨hstays, hcwd.resolve_left hstays, hbarren.handles⟩

/-- `vfs_create` in AbyssFS. -/
theorem create_abyss (h : SessionInv s rs) (hp : ¬ tmpDir <+: p.bytes)
    (hfits : (RootCall.create p.arg).Fits s.v.abyss) :
    ∃ rs', SessionInv (VfsCall.obtained s (vfsCreate s.v p.bytes) p) rs' := by
  have htarget : createTarget s.v.mounts s.v.cwd p.bytes = some (.abyssfs, p.bytes) := by
    rw [h.mounts]
    exact (FilePath.targets_abyss hp _).1
  have hl : (basename p.arg.strip).length ≤ 245 := by
    have := p.length_basename
    rw [maxPath] at this
    omega
  unfold vfsCreate
  simp only [htarget]
  rcases h.cwd with hstays | ⟨hstays, hbarren⟩
  · rcases h.root.create_short hstays s.v.heap hl hfits with hnone | ⟨i, hi32, hne1, hhandle, hkept⟩
    · rw [show abyssfsCreate s.v.heap s.v.abyss s.v.cwd p.bytes = _ from hnone]
      exact ⟨rs, fail h⟩
    · set r := entryRecord (basename p.arg.strip) i p.arg.basename_nulFree hl hi32
      rw [show p.arg.bytes = p.bytes from rfl] at hhandle hkept
      have hinv : ∀ heap, SessionInv { s with v := { s.v with heap := heap, abyss := _ } } _ :=
        fun _ => h.setAbyss hkept (fun q hq => List.mem_append_left _ hq) (Or.inl hstays)
      refine ⟨rs ++ [r], ?_⟩
      cases hheap : kalloc s.v.heap sizeofVfsFile with
      | none =>
        rw [hheap, Option.map_none] at hhandle
        rw [hhandle]
        exact fail (hinv _)
      | some x =>
        rw [hheap, Option.map_some] at hhandle
        rw [hhandle]
        dsimp only
        refine alloc (hinv _) ⟨?_, fun _ => hne1, ?_⟩ (Or.inl hstays)
        · intro hops
          cases hops
        · intro _ q hq
          rw [← Option.mem_some_iff.1 hq, FilePath.file_abyss hp]
          exact Or.inr ⟨rfl, r, by simp, rfl, rfl⟩
  · -- the directory of the process is none, and the call fails
    have hkept := h.root.kept_allocInode
    have hblocks : ∀ r ∈ rs, ((allocInode s.v.abyss).2.inodes r.inode).blocks = 0 := by
      intro r hr
      rw [allocInode_of_ne]
      · exact hbarren.entries r hr
      · rcases h.root.allocInode with hnone | ⟨i, hi, -, -, -, hfresh, -⟩
        · have := (h.root.live r hr).1
          rw [hnone]
          dsimp only
          omega
        · rw [hi]
          rintro rfl
          exact hfresh (mem_inodes hr)
    have hfails := hkept.not_findsDir h.cwd_nul hstays hblocks
    rw [abyssfsCreate_of_not_findsDir hfails]
    exact ⟨rs, fail (h.setAbyss hkept (fun _ hr => hr) (Or.inr hblocks))⟩

/-- `vfs_open`. -/
theorem openPath (h : SessionInv s rs) (p : FilePath) :
    SessionInv (VfsCall.obtained s (vfsOpen s.v p.bytes) p) rs := by
  have hheap : ∀ heap, SessionInv { s with v := { s.v with heap := heap } } rs :=
    fun heap => h.setRam h.slots fun _ _ _ => id
  have htarget := p.openTarget_eq
  rw [← h.ns] at htarget
  unfold vfsOpen
  by_cases htmp : tmpSlash <+: p.bytes
  · rw [if_pos htmp] at htarget
    simp only [htarget]
    unfold ramfsOpen
    cases hfind : findUsed s.v.ram p.bytes with
    | none => exact fail h
    | some i =>
      obtain ⟨hi, hholds⟩ := findUsed_eq_some p.nul_free hfind
      cases kalloc s.v.heap sizeofVfsFile with
      | none => exact fail h
      | some r =>
        dsimp only
        refine alloc (hheap _) ⟨fun _ => Nat.zero_le _, ?_, ?_⟩ (Or.inr ?_)
        · intro hops
          cases hops
        · intro _ q hq
          rw [← Option.mem_some_iff.1 hq, FilePath.file_ram (tmpDir_prefix_of_tmpSlash htmp),
            ramfsFullPath_of_prefix htmp]
          exact Or.inr ⟨rfl, p.nul_free, p.short, hholds⟩
        · intro hops
          cases hops
  · rw [if_neg htmp] at htarget
    simp only [htarget]
    unfold abyssfsOpen
    cases kalloc s.v.heap sizeofVfsFile with
    | none => exact fail h
    | some r =>
      dsimp only
      refine alloc (hheap _) ⟨?_, fun _ => Nat.zero_ne_one, ?_⟩ (Or.inr fun _ => rfl)
      · intro hops
        cases hops
      · exact fun _ q _ => Or.inl ⟨rfl, rfl⟩

/-- An `unlink` that fails. -/
theorem unlink_none (h : SessionInv s rs) (hcall : vfsUnlink s.v p.bytes = (-1, s.v)) :
    SessionInv ((VfsCall.unlink p).apply s) rs := by
  have hneg : (-1 : Int) ≠ 0 := by decide
  rw [VfsCall.apply, hcall]
  refine ⟨h.root, h.mounts, h.ns, h.cwd_nul, h.cwd, h.slots, ?_⟩
  intro fd file hfile
  have hok := h.handles fd file hfile
  simpa only [VfsCall.noted, hneg, false_and, decide_false, Bool.or_false] using hok

/-- An `unlink` that succeeds: the handles on other files still are. -/
theorem unlink_some {rs' : List DirRecord} {v' : Vfs} (h : SessionInv s rs)
    (hcall : vfsUnlink s.v p.bytes = (0, v'))
    (hinv : SessionInv { s with v := v', unlinked := fun _ => true } rs')
    (hother : ∀ fd file, v'.fdTable fd = some file → s.v.fdTable fd = some file)
    (hkeep : ∀ fd file (q : FilePath), v'.fdTable fd = some file → q.file ≠ p.file →
      IsHandleOf s.v.ram rs file q.file → IsHandleOf v'.ram rs' file q.file) :
    SessionInv ((VfsCall.unlink p).apply s) rs' := by
  rw [VfsCall.apply, hcall]
  refine ⟨hinv.root, hinv.mounts, hinv.ns, hinv.cwd_nul, hinv.cwd, hinv.slots, ?_⟩
  intro fd file hfile
  have hok := h.handles fd file (hother fd file hfile)
  refine ⟨hok.position, hok.not_root, ?_⟩
  intro hb q hq
  simp only [VfsCall.noted, Bool.or_eq_false_iff, decide_eq_false_iff_not, true_and] at hb hq
  have hne : q.file ≠ p.file := fun heq => hb.2 (by rw [Option.mem_def.1 hq, Option.map_some, heq])
  exact (hok.refers hb.1 q hq).imp_right (hkeep fd file q hfile hne)

/-- `vfs_unlink` in RAMFS: no descriptor but those of the file is on the slot that it gives up. -/
theorem unlink_ram (h : SessionInv s rs) (hp : tmpDir <+: p.bytes) :
    SessionInv ((VfsCall.unlink p).apply s) rs := by
  have htarget : unlinkTarget s.v.mounts s.v.cwd p.bytes = some (.ramfs, p.bytes) := by
    rw [h.mounts]
    exact (FilePath.targets_ram hp s.v.cwd).2
  cases hfind : findUsed s.v.ram p.bytes with
  | none => exact h.unlink_none (by simp only [vfsUnlink, htarget, ramfsUnlink, hfind])
  | some i =>
    obtain ⟨hi, hused, hs⟩ := findUsed_eq_some p.nul_free hfind
    have hcall : vfsUnlink s.v p.bytes = (0, { s.v with
        ram := s.v.ram.setFile i { mem := (s.v.ram.files i).mem, size := 0, used := false } }) := by
      simp only [vfsUnlink, htarget, ramfsUnlink, hfind]
    refine h.unlink_some hcall ⟨h.root, h.mounts, h.ns, h.cwd_nul, ?_, h.slots.setFile ?_, ?_⟩
      (fun _ _ => id) ?_
    · exact h.cwd.imp_right fun hb => ⟨hb.1, hb.2.entries, hb.2.handles⟩
    · intro hfree
      cases hfree
    · intro fd file hfile
      exact (h.handles fd file hfile).orphan
    · intro fd file q hfile hne
      cases hq : q.file with
      | entry name => exact id
      | slot path =>
        rintro ⟨hops, hnul, hlen, hholds⟩
        refine ⟨hops, hnul, hlen, ?_⟩
        have hslot : file.privateData ≠ i := by
          intro heq
          rw [heq] at hholds
          obtain rfl : path = p.bytes := hholds.2.unique hs hnul p.nul_free
          -- a stored path begins with "/tmp/", so that it is stored as it is
          have hslash : tmpSlash <+: p.bytes := by
            unfold FilePath.file at hq
            split at hq
            · rw [← FileName.slot.inj hq]
              exact ramfsFullPath_prefix _
            · cases hq
          rw [hq, FilePath.file_ram hp, ramfsFullPath_of_prefix hslash] at hne
          exact hne rfl
        rw [HoldsPath, setFile_of_ne hslot]
        exact hholds

/-- `vfs_unlink` in AbyssFS: no descriptor but those of the file is on the entry that it takes
out. -/
theorem unlink_abyss (h : SessionInv s rs) (hp : ¬ tmpDir <+: p.bytes)
    (hspares : (RootCall.unlink p.arg).Spares) :
    ∃ rs', SessionInv ((VfsCall.unlink p).apply s) rs' := by
  have htarget : unlinkTarget s.v.mounts s.v.cwd p.bytes = some (.abyssfs, p.bytes) := by
    rw [h.mounts]
    exact (FilePath.targets_abyss hp _).2
  have hnul : NulFree p.arg.strip := fun hmem => p.nul_free ((List.dropWhile_sublist _).mem hmem)
  have hpath : p.bytes.dropWhile (· = slash) = p.arg.strip := rfl
  rcases cut_at_name rs p.arg.strip with hne | ⟨us, r, ts, rfl, hr, hne⟩
  · refine ⟨rs, h.unlink_none ?_⟩
    simp only [vfsUnlink, htarget, h.root.unlink_none hpath hnul hspares hne]
  · rw [← hr] at hpath hne
    have hdots : r.name ≠ dot.name ∧ r.name ≠ (dotdot false).name := by
      rw [hr]
      exact hspares
    have hmem : r ∈ us ++ r :: ts := by simp
    have hcall : vfsUnlink s.v p.bytes =
        (0, { s.v with abyss := (abyssfsUnlink s.v.abyss p.bytes).2 }) := by
      simp only [vfsUnlink, htarget, (h.root.unlink_some hpath hdots hne).1]
    have hinodes : ∀ q ∈ us ++ ts, (abyssfsUnlink s.v.abyss p.bytes).2.inodes q.inode =
        s.v.abyss.inodes q.inode := by
      intro q hq
      rw [h.root.dir.unlink_some hpath hdots hne]
      exact releaseInode_frame.2 (h.root.inode_ne hq)
    have hsub : ∀ q ∈ us ++ ts, q ∈ us ++ r :: ts :=
      fun q hq => ((List.sublist_cons_self r ts).append_left us).mem hq
    refine ⟨us ++ ts, h.unlink_some hcall ⟨(h.root.unlink_some hpath hdots hne).2, h.mounts, h.ns,
      h.cwd_nul, ?_, h.slots, ?_⟩ (fun _ _ => id) ?_⟩
    · refine h.cwd.imp_right ?_
      rintro ⟨hstays, hbarren⟩
      refine ⟨hstays, fun q hq => ?_, hbarren.handles⟩
      rw [hinodes q hq]
      exact hbarren.entries q (hsub q hq)
    · intro fd file hfile
      exact (h.handles fd file hfile).orphan
    · intro fd file q hfile hne'
      cases hq : q.file with
      | slot path => exact id
      | entry name =>
        rintro ⟨hops, r', hr', hinode, hname⟩
        have hrr : r' ≠ r := by
          rintro rfl
          -- the name is that of a path without a directory
          have hbase : basename p.arg.strip = r'.name := by
            rw [← hr, basename, strrchr_eq_none_iff.2 (h.root.noSlash r' hmem)]
          rw [hq, FilePath.file_abyss hp, hbase, hname] at hne'
          exact hne' rfl
        refine ⟨hops, r', ?_, hinode, hname⟩
        rcases List.mem_append.1 hr' with hr' | hr'
        · exact List.mem_append_left _ hr'
        · exact List.mem_append_right _ ((List.mem_cons.1 hr').resolve_left hrr)

/-- `vfs_write`, through whatever descriptor. -/
theorem write (h : SessionInv s rs) {fd : Nat} {buf : List UInt8}
    (hbuf : buf.length + maxContent < 2 ^ 64) :
    SessionInv ((VfsCall.write fd buf).apply s) rs := by
  simp only [VfsCall.apply, vfsWrite]
  cases hget : getFile s.v fd with
  | none => exact h
  | some file =>
    have hfile := getFile_eq_some hget
    have hok := h.handles fd file hfile
    have hnat : (fd : Int).toNat = fd := Int.toNat_natCast _
    dsimp only
    cases hops : file.fOps with
    | abyssfs =>
      refine ⟨h.root.write (hok.not_root hops) buf, h.mounts, h.ns, h.cwd_nul, ?_,
        h.slots, h.handles⟩
      refine h.cwd.imp_right ?_
      rintro ⟨hstays, hbarren⟩
      refine ⟨hstays, fun r hr => ?_, hbarren.handles⟩
      have hne : r.inode ≠ file.privateData := by
        have := (h.root.live r hr).1
        rw [hbarren.handles fd file hfile hops]
        omega
      dsimp only
      rw [(h.root.own.write_frame (hok.not_root hops) buf).1 _ hne]
      exact hbarren.entries r hr
    | ramfs =>
      have hpos' := hok.position hops
      obtain ⟨hops', hslot, hpos, hother, hused, hout⟩ :=
        ramfsWrite_frame hpos' (by omega : file.fPos + buf.length < 2 ^ 64)
      have hkeep : ∀ rs o b g, HandleOk s.v.ram rs o b g →
          HandleOk (ramfsWrite s.v.ram file buf).2.2 rs o b g := by
        refine fun rs o b g hg => hg.frame fun i hi => ⟨by rw [hused, hi], ?_⟩
        intro x hx
        exact hout i x (Or.inl hx)
      refine ⟨h.root, h.mounts, h.ns, h.cwd_nul, ?_, ?_, ?_⟩
      · refine h.cwd.imp_right fun hb => ⟨hb.1, hb.2.entries, ?_⟩
        intro k g hg hg'
        simp only [Vfs.setFile, hnat] at hg
        split at hg
        · rw [← Option.some.inj hg, hops', hops] at hg'
          cases hg'
        · exact hb.2.handles k g hg hg'
      · intro i hi
        dsimp only at hi ⊢
        rw [hused] at hi
        obtain ⟨path, hnul, hlen, hs⟩ := h.slots i hi
        exact ⟨path, hnul, hlen, cstringAt_of_prefix hs hlen fun x hx => hout i x (Or.inl hx)⟩
      · intro k g hg
        simp only [Vfs.setFile, hnat] at hg
        by_cases hk : k = fd
        · rw [if_pos hk, Option.some_inj] at hg
          rw [hk, ← hg]
          -- the handle has another position only
          obtain ⟨-, -, hrefers⟩ := hkeep rs _ _ file hok
          refine ⟨fun _ => hpos, fun h' => ?_, fun hb p hp => ?_⟩
          · rw [hops', hops] at h'
            cases h'
          · refine (hrefers hb p hp).imp ?_ ?_
            · rintro ⟨h', -⟩
              rw [hops] at h'
              cases h'
            · cases p.file with
              | slot path =>
                rw [IsHandleOf, IsHandleOf, hops', hslot]
                exact id
              | entry name =>
                rw [IsHandleOf, IsHandleOf, hops', hslot]
                exact id
        · rw [if_neg hk] at hg
          exact hkeep rs _ _ g (h.handles k g hg)

/-- `vfs_close`. -/
theorem close (h : SessionInv s rs) {fd : Nat} : SessionInv ((VfsCall.close fd).apply s) rs := by
  simp only [VfsCall.apply, vfsClose]
  cases getFile s.v fd with
  | none => exact h
  | some file =>
    have hkeep : ∀ k g, (if k = (fd : Int).toNat then none else s.v.fdTable k) = some g →
        s.v.fdTable k = some g := by
      intro k g hg
      split at hg
      · cases hg
      · exact hg
    refine ⟨h.root, h.mounts, h.ns, h.cwd_nul, ?_, h.slots,
      fun k g hg => h.handles k g (hkeep k g hg)⟩
    exact h.cwd.imp_right fun hb =>
      ⟨hb.1, hb.2.entries, fun k g hg => hb.2.handles k g (hkeep k g hg)⟩

/-- **One call** keeps the invariant. -/
theorem call (h : SessionInv s rs) {a : VfsCall} (ha : a.Allowed s.v) :
    ∃ rs', SessionInv (a.apply s) rs' := by
  cases a with
  | create p =>
    simp only [VfsCall.Allowed] at ha
    split at ha
    · next hp => exact ⟨rs, h.create_ram hp ha⟩
    · next hp => exact h.create_abyss hp ha
  | openPath p => exact ⟨rs, h.openPath p⟩
  | unlink p =>
    by_cases hp : tmpDir <+: p.bytes
    · exact ⟨rs, h.unlink_ram hp⟩
    · exact h.unlink_abyss hp (ha.resolve_left hp)
  | write fd buf => exact ⟨rs, h.write ha⟩
  | close fd => exact ⟨rs, h.close⟩

end SessionInv

/-- The invariant holds along every run. -/
theorem session_invariant {m : ByteMem} {cwd : Str} (hcwd : NulFree cwd) {t : Session}
    (h : vfsLts.Reachable (Session.init m cwd) t) : ∃ rs, SessionInv t rs := by
  refine h.invariant (P := fun t => ∃ rs, SessionInv t rs) (fun s a u hs hstep => ?_)
    (sessionInv_init m hcwd)
  obtain ⟨rs, hinv⟩ := hs
  obtain ⟨ha, rfl⟩ := hstep
  exact hinv.call ha

end OsArm
