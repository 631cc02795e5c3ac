import OsArm.Lib.Transition
import OsArm.Ram.Paths
import OsArm.Vfs.Routing

/-!
# File descriptors (`vfs.c`)

Any run of the calls of the VFS, with any paths and any integers for descriptors.  Beside the
state runs what its user knows: the object that each open descriptor was returned for, and how
many descriptors have been returned (`FdState`).

* `vfsCreate_eq`, `vfsOpen_eq` — a file-system call, and then `alloc_fd`.
* `FdInv` — the invariant: the entries of the table are the user's, there are none from
  `next_fd` on, and `next_fd` counts the descriptors returned.
* `descriptors_map` — the table is a faithful partial map.
* `reuse_iff` — a call that opens succeeds if and only if fewer than `MAX_FD` descriptors have
  been returned before it, however many of them are closed again.
* `create_whole_iff` — when a failed `vfs_create` leaves nothing behind.
-/

namespace OsArm

/-! ## The calls -/

/-- The file-system call of `vfs_create`. -/
def fsCreate (v : Vfs) (path : Str) : Option VfsFile × Vfs :=
  match createTarget v.mounts v.cwd path with
  | none => (none, v)
  | some (.ramfs, fullPath) =>
    let (file, heap, ram) := ramfsCreate v.heap v.ram fullPath
    (file, { v with heap := heap, ram := ram })
  | some (.abyssfs, fullPath) =>
    let (file, heap, abyss) := abyssfsCreate v.heap v.abyss v.cwd fullPath
    (file, { v with heap := heap, abyss := abyss })

/-- The file-system call of `vfs_open`. -/
def fsOpen (v : Vfs) (path : Str) : Option VfsFile × Vfs :=
  let (fs, resolved) := openTarget v.ns path
  let (file, heap) := match fs with
    | .ramfs => ramfsOpen v.heap v.ram resolved
    | .abyssfs => abyssfsOpen v.heap resolved
  (file, { v with heap := heap })

theorem fsCreate_frame (v : Vfs) (path : Str) :
    (fsCreate v path).2.fdTable = v.fdTable ∧ (fsCreate v path).2.nextFd = v.nextFd := by
  unfold fsCreate
  cases createTarget v.mounts v.cwd path with
  | none => exact ⟨rfl, rfl⟩
  | some target =>
    obtain ⟨fs, fullPath⟩ := target
    cases fs <;> exact ⟨rfl, rfl⟩

/-- What both do with the file. -/
def withFd : Option VfsFile × Vfs → Int × Vfs
  | (none, v) => (-1, v)
  | (some file, v) => allocFd v file

theorem vfsCreate_eq (v : Vfs) (path : Str) : vfsCreate v path = withFd (fsCreate v path) := by
  unfold vfsCreate fsCreate
  cases createTarget v.mounts v.cwd path with
  | none => rfl
  | some target =>
    obtain ⟨fs, fullPath⟩ := target
    cases fs with
    | ramfs =>
      dsimp only
      obtain ⟨file, heap, ram⟩ := ramfsCreate v.heap v.ram fullPath
      cases file <;> rfl
    | abyssfs =>
      dsimp only
      obtain ⟨file, heap, abyss⟩ := abyssfsCreate v.heap v.abyss v.cwd fullPath
      cases file <;> rfl

theorem vfsOpen_eq (v : Vfs) (path : Str) : vfsOpen v path = withFd (fsOpen v path) := by
  unfold vfsOpen fsOpen
  obtain ⟨fs, resolved⟩ := openTarget v.ns path
  cases fs with
  | ramfs =>
    dsimp only
    obtain ⟨file, heap⟩ := ramfsOpen v.heap v.ram resolved
    cases file <;> rfl
  | abyssfs =>
    dsimp only
    obtain ⟨file, heap⟩ := abyssfsOpen v.heap resolved
    cases file <;> rfl

/-- A call that opens a descriptor. -/
inductive OpenCall
  | create (path : Str)
  | openPath (path : Str)

namespace OpenCall

/-- Its file-system call. -/
def file (v : Vfs) : OpenCall → Option VfsFile × Vfs
  | create path => fsCreate v path
  | openPath path => fsOpen v path

/-- The call. -/
def apply (v : Vfs) : OpenCall → Int × Vfs
  | create path => vfsCreate v path
  | openPath path => vfsOpen v path

theorem apply_eq (v : Vfs) (c : OpenCall) : c.apply v = withFd (c.file v) := by
  cases c with
  | create path => exact vfsCreate_eq v path
  | openPath path => exact vfsOpen_eq v path

/-- The file-system call leaves the descriptors alone. -/
theorem file_frame (v : Vfs) (c : OpenCall) :
    (c.file v).2.fdTable = v.fdTable ∧ (c.file v).2.nextFd = v.nextFd := by
  cases c with
  | create path => exact fsCreate_frame v path
  | openPath path => exact ⟨rfl, rfl⟩

end OpenCall

/-- A call of the VFS. -/
inductive FdCall
  | opening (c : OpenCall)
  | read (fd : Int) (count : Nat)
  | write (fd : Int) (buf : List UInt8)
  | close (fd : Int)
  | unlink (path : Str)
  | mkdir (path : Str)
  | readDir (before : UInt8) (path : Str) (count : Nat)
  | bind (before : UInt8) (b : Binding)

/-- The object that a handle is for: the operations and the file, without the position. -/
def VfsFile.object (file : VfsFile) : FsType × Nat := (file.fOps, file.privateData)

/-- The VFS and what its user knows of it. -/
structure FdState where
  v : Vfs
  /-- The object that each open descriptor was returned for. -/
  opens : Int → Option (FsType × Nat)
  /-- How many descriptors have been returned. -/
  returned : Nat

/-- After `vfs_init`. -/
def FdState.init (m : ByteMem) (cwd : Str) : FdState :=
  { v := vfsInit m cwd, opens := fun _ => none, returned := 0 }

namespace FdCall

/-- The state after a call. -/
def apply (v : Vfs) : FdCall → Vfs
  | opening c => (c.apply v).2
  | read fd count => (vfsRead v fd count).2
  | write fd buf => (vfsWrite v fd buf).2
  | close fd => (vfsClose v fd).2
  | unlink path => (vfsUnlink v path).2
  | mkdir path => (vfsMkdir v path).2
  | readDir before path count => (vfsReadDir before v path count).2
  | bind before b => (OsArm.bind before v b).2

/-- What the user learns from the answer. -/
def opens (s : FdState) : FdCall → Int → Option (FsType × Nat)
  | opening c =>
    if (c.apply s.v).1 = -1 then s.opens
    else Function.update s.opens (c.apply s.v).1 ((c.file s.v).1.map VfsFile.object)
  | close fd => if (vfsClose s.v fd).1 = 0 then Function.update s.opens fd none else s.opens
  | _ => s.opens

/-- The descriptors returned, after the call. -/
def returned (s : FdState) : FdCall → Nat
  | opening c => if (c.apply s.v).1 = -1 then s.returned else s.returned + 1
  | _ => s.returned

/-- The next state. -/
def next (s : FdState) (c : FdCall) : FdState :=
  { v := c.apply s.v, opens := c.opens s, returned := c.returned s }

end FdCall

/-- Any calls in any order. -/
def fdLts : Lts FdState FdCall where
  step s c t := t = c.next s

/-! ## The invariant -/

/-- **The invariant of the descriptor table.** -/
structure FdInv (s : FdState) : Prop where
  /-- The table holds what the user thinks. -/
  table : ∀ k : Nat, (s.v.fdTable k).map VfsFile.object = s.opens k
  negative : ∀ fd : Int, fd < 0 → s.opens fd = none
  above : ∀ k, s.v.nextFd ≤ k → s.v.fdTable k = none
  count : s.v.nextFd = s.returned
  bounded : s.v.nextFd ≤ maxFd

theorem fdInv_init (m : ByteMem) (cwd : Str) : FdInv (FdState.init m cwd) :=
  ⟨fun _ => rfl, fun _ _ => rfl, fun _ _ => rfl, rfl, Nat.zero_le _⟩

section Calls

variable {s : FdState} {v : Vfs} {fd : Int} {file : VfsFile}

/-- `alloc_fd` fails when `next_fd` is at the end. -/
theorem allocFd_of_le (h : maxFd ≤ v.nextFd) : allocFd v file = (-1, v) := if_pos h

/-- Otherwise it takes the next entry. -/
theorem allocFd_of_lt (h : v.nextFd < maxFd) : allocFd v file = ((v.nextFd : Int), { v with
    fdTable := fun k => if k = v.nextFd then some file else v.fdTable k
    nextFd := v.nextFd + 1 }) := if_neg (Nat.not_le.2 h)

/-- **A call that opens** a descriptor: it fails and leaves the table alone, for want of a
file or of an entry, or it puts the file into the next entry. -/
theorem OpenCall.apply_spec (v : Vfs) (c : OpenCall) :
    ((c.file v).1 = none ∨ maxFd ≤ v.nextFd) ∧ (c.apply v).1 = -1 ∧
        (c.apply v).2.fdTable = v.fdTable ∧ (c.apply v).2.nextFd = v.nextFd ∨
      ∃ file, (c.file v).1 = some file ∧ v.nextFd < maxFd ∧ (c.apply v).1 = v.nextFd ∧
        (c.apply v).2.fdTable = (fun k => if k = v.nextFd then some file else v.fdTable k) ∧
        (c.apply v).2.nextFd = v.nextFd + 1 := by
  obtain ⟨htable, hnext⟩ := c.file_frame v
  rw [c.apply_eq]
  generalize c.file v = x at htable hnext ⊢
  obtain ⟨file, v'⟩ := x
  dsimp only at htable hnext
  rw [← htable, ← hnext]
  cases file with
  | none => exact Or.inl ⟨Or.inl rfl, rfl, rfl, rfl⟩
  | some file =>
    by_cases hle : maxFd ≤ v'.nextFd
    · rw [withFd, allocFd_of_le hle]
      exact Or.inl ⟨Or.inr hle, rfl, rfl, rfl⟩
    · rw [withFd, allocFd_of_lt (Nat.not_le.1 hle)]
      exact Or.inr ⟨file, rfl, Nat.not_le.1 hle, rfl, rfl, rfl⟩

/-- What `get_file` finds is what the user thinks. -/
theorem FdInv.getFile_object (h : FdInv s) (fd : Int) :
    (getFile s.v fd).map VfsFile.object = s.opens fd := by
  unfold getFile
  by_cases hneg : fd < 0
  · rw [if_pos (Or.inl hneg), h.negative fd hneg]
    rfl
  · obtain ⟨k, rfl⟩ := Int.eq_ofNat_of_zero_le (Int.not_lt.1 hneg)
    have hk := h.table k
    by_cases hmax : (maxFd : Int) ≤ k
    · rw [h.above k (Nat.le_trans h.bounded (by omega))] at hk
      rw [if_pos (Or.inr hmax), ← hk]
    · rw [if_neg (by omega), Int.toNat_natCast, ← hk]

/-- A handle that is found is in the table. -/
theorem getFile_table (hget : getFile v fd = some file) :
    0 ≤ fd ∧ v.fdTable fd.toNat = some file := by
  unfold getFile at hget
  split at hget
  · cases hget
  · next hrange => exact ⟨by omega, hget⟩

/-- Whatever keeps the objects of the entries and `next_fd` keeps the invariant. -/
theorem FdInv.frame (h : FdInv s) {v' : Vfs}
    (htable : ∀ k, (v'.fdTable k).map VfsFile.object = (s.v.fdTable k).map VfsFile.object)
    (hnext : v'.nextFd = s.v.nextFd) : FdInv { s with v := v' } where
  table k := (htable k).trans (h.table k)
  negative := h.negative
  above := by
    intro k hk
    rw [← Option.map_eq_none_iff, htable k, h.above k (by rwa [hnext] at hk)]
    rfl
  count := hnext.trans h.count
  bounded := by
    dsimp only
    rw [hnext]
    exact h.bounded

/-- Changing the position in a handle keeps the objects. -/
theorem setFile_object (hget : getFile v fd = some file) {file' : VfsFile}
    (hobj : file'.object = file.object) (k : Nat) :
    ((v.setFile fd file').fdTable k).map VfsFile.object = (v.fdTable k).map VfsFile.object := by
  obtain ⟨-, htable⟩ := getFile_table hget
  by_cases hk : k = fd.toNat
  · subst hk
    rw [htable, Option.map_some, ← hobj]
    simp [Vfs.setFile]
  · simp only [Vfs.setFile, if_neg hk]

/-! ## One call -/

theorem FdInv.opening (h : FdInv s) (c : OpenCall) : FdInv ((FdCall.opening c).next s) := by
  rcases c.apply_spec s.v with ⟨-, hret, htable, hnext⟩ | ⟨file, hfile, hlt, hret, htable, hnext⟩
  · have hsame : FdInv { s with v := (c.apply s.v).2 } := h.frame (fun k => by rw [htable]) hnext
    simp only [FdCall.next, FdCall.apply, FdCall.opens, FdCall.returned, if_pos hret]
    exact hsame
  · have hne : (c.apply s.v).1 ≠ -1 := by omega
    simp only [FdCall.next, FdCall.apply, FdCall.opens, FdCall.returned, if_neg hne]
    refine ⟨fun k => ?_, fun fd hfd => ?_, fun k hk => ?_, ?_, ?_⟩ <;> dsimp only at *
    · rw [htable, hret, hfile]
      dsimp only
      by_cases hk : k = s.v.nextFd
      · rw [hk, Function.update_self, if_pos rfl]
      · rw [Function.update_of_ne (by omega), if_neg hk]
        exact h.table k
    · rw [hret, Function.update_of_ne (by omega)]
      exact h.negative fd hfd
    · rw [hnext] at hk
      rw [htable]
      dsimp only
      rw [if_neg (by omega)]
      exact h.above k (by omega)
    · rw [hnext, h.count]
    · rw [hnext]
      exact hlt

theorem FdInv.close (h : FdInv s) (fd : Int) : FdInv ((FdCall.close fd).next s) := by
  cases hget : getFile s.v fd with
  | none =>
    have hcall : vfsClose s.v fd = (-1, s.v) := by
      unfold vfsClose
      rw [hget]
    simp only [FdCall.next, FdCall.apply, FdCall.opens, FdCall.returned, hcall]
    exact h
  | some file =>
    obtain ⟨hpos, htable⟩ := getFile_table hget
    have hcall : vfsClose s.v fd =
        (0, { s.v with fdTable := fun k => if k = fd.toNat then none else s.v.fdTable k }) := by
      unfold vfsClose
      rw [hget]
    simp only [FdCall.next, FdCall.apply, FdCall.opens, FdCall.returned, hcall, if_true]
    refine ⟨fun k => ?_, fun x hx => ?_, fun k hk => ?_, h.count, h.bounded⟩ <;> dsimp only
    · by_cases hk : k = fd.toNat
      · have hfd : (k : Int) = fd := by omega
        rw [if_pos hk, hfd, Function.update_self]
        rfl
      · rw [if_neg hk, Function.update_of_ne (by omega)]
        exact h.table k
    · rw [Function.update_of_ne (by omega)]
      exact h.negative x hx
    · split
      · rfl
      · exact h.above k hk

/-- The file operations change the position in a handle only. -/
theorem abyssfsRead_object (fs : AbyssFs) (file : VfsFile) (count : Nat) :
    (abyssfsRead fs file count).2.object = file.object := by
  unfold abyssfsRead
  cases getInode fs file.privateData with
  | none => rfl
  | some inode =>
    dsimp only
    split <;> rfl

theorem ramfsRead_object (ram : RamFs) (file : VfsFile) (count : Nat) :
    (ramfsRead ram file count).2.object = file.object := by
  unfold ramfsRead
  dsimp only
  split <;> rfl

theorem ramfsWrite_object (ram : RamFs) (file : VfsFile) (buf : List UInt8) :
    (ramfsWrite ram file buf).2.1.object = file.object := by
  unfold ramfsWrite
  dsimp only
  split <;> split <;> rfl

theorem vfsRead_objects (v : Vfs) (fd : Int) (count : Nat) :
    (∀ k, ((vfsRead v fd count).2.fdTable k).map VfsFile.object =
      (v.fdTable k).map VfsFile.object) ∧ (vfsRead v fd count).2.nextFd = v.nextFd := by
  unfold vfsRead
  cases hget : getFile v fd with
  | none => exact ⟨fun _ => rfl, rfl⟩
  | some file =>
    dsimp only
    cases file.fOps with
    | ramfs => exact ⟨setFile_object hget (ramfsRead_object _ _ _), rfl⟩
    | abyssfs => exact ⟨setFile_object hget (abyssfsRead_object _ _ _), rfl⟩

theorem vfsWrite_objects (v : Vfs) (fd : Int) (buf : List UInt8) :
    (∀ k, ((vfsWrite v fd buf).2.fdTable k).map VfsFile.object =
      (v.fdTable k).map VfsFile.object) ∧ (vfsWrite v fd buf).2.nextFd = v.nextFd := by
  unfold vfsWrite
  cases hget : getFile v fd with
  | none => exact ⟨fun _ => rfl, rfl⟩
  | some file =>
    dsimp only
    cases file.fOps with
    | ramfs => exact ⟨setFile_object hget (ramfsWrite_object _ _ _), rfl⟩
    | abyssfs => exact ⟨fun _ => rfl, rfl⟩

theorem FdInv.read (h : FdInv s) (fd : Int) (count : Nat) :
    FdInv ((FdCall.read fd count).next s) := by
  obtain ⟨htable, hnext⟩ := vfsRead_objects s.v fd count
  exact h.frame htable hnext

theorem FdInv.write (h : FdInv s) (fd : Int) (buf : List UInt8) :
    FdInv ((FdCall.write fd buf).next s) := by
  obtain ⟨htable, hnext⟩ := vfsWrite_objects s.v fd buf
  exact h.frame htable hnext

/-- The calls on paths leave the descriptors alone. -/
theorem FdCall.paths_frame (v : Vfs) :
    (∀ path, (vfsUnlink v path).2.fdTable = v.fdTable ∧ (vfsUnlink v path).2.nextFd = v.nextFd) ∧
    (∀ path, (vfsMkdir v path).2.fdTable = v.fdTable ∧ (vfsMkdir v path).2.nextFd = v.nextFd) ∧
    ∀ before path count, (vfsReadDir before v path count).2.fdTable = v.fdTable ∧
      (vfsReadDir before v path count).2.nextFd = v.nextFd := by
  refine ⟨?_, ?_, ?_⟩
  · intro path
    unfold vfsUnlink
    cases unlinkTarget v.mounts v.cwd path with
    | none => exact ⟨rfl, rfl⟩
    | some target =>
      obtain ⟨fs, p⟩ := target
      cases fs <;> exact ⟨rfl, rfl⟩
  · intro path
    unfold vfsMkdir
    cases mkdirTarget v.mounts v.cwd path with
    | none => exact ⟨rfl, rfl⟩
    | some target =>
      obtain ⟨fs, p⟩ := target
      cases fs <;> exact ⟨rfl, rfl⟩
  · intro before path count
    rw [vfsReadDir_snd]
    exact ⟨rfl, rfl⟩

theorem bind_frame (before : UInt8) (v : Vfs) (b : Binding) :
    (bind before v b).2.fdTable = v.fdTable ∧ (bind before v b).2.nextFd = v.nextFd := by
  obtain ⟨htable, hnext⟩ := (FdCall.paths_frame v).2.2 before b.oldPath 1
  unfold bind
  generalize vfsReadDir before v b.oldPath 1 = x at htable hnext
  obtain ⟨entries, v₁⟩ := x
  cases entries with
  | none => exact ⟨htable, hnext⟩
  | some entries =>
    obtain ⟨htable₁, hnext₁⟩ := (FdCall.paths_frame v₁).2.2 before b.newPath 1
    rw [← htable, ← hnext]
    dsimp only
    generalize vfsReadDir before v₁ b.newPath 1 = y at htable₁ hnext₁
    obtain ⟨entries, v₂⟩ := y
    cases entries with
    | none => exact ⟨htable₁, hnext₁⟩
    | some entries =>
      dsimp only
      split <;> exact ⟨htable₁, hnext₁⟩

/-- **One call** keeps the invariant. -/
theorem FdInv.next (h : FdInv s) (c : FdCall) : FdInv (c.next s) := by
  have hframe : ∀ v' : Vfs, v'.fdTable = s.v.fdTable ∧ v'.nextFd = s.v.nextFd →
      FdInv { s with v := v' } := fun v' hv' => h.frame (fun k => by rw [hv'.1]) hv'.2
  cases c with
  | opening c => exact h.opening c
  | read fd count => exact h.read fd count
  | write fd buf => exact h.write fd buf
  | close fd => exact h.close fd
  | unlink path => exact hframe _ ((FdCall.paths_frame s.v).1 path)
  | mkdir path => exact hframe _ ((FdCall.paths_frame s.v).2.1 path)
  | readDir before path count => exact hframe _ ((FdCall.paths_frame s.v).2.2 before path count)
  | bind before b => exact hframe _ (bind_frame before s.v b)

/-- An open descriptor stays open until its own `close`. -/
theorem FdInv.opens_of_ne (h : FdInv s) {c : FdCall} {o : FsType × Nat}
    (hopen : s.opens fd = some o) (hclose : c ≠ .close fd) : c.opens s fd = s.opens fd := by
  cases c with
  | opening c =>
    simp only [FdCall.opens]
    split
    · rfl
    · next hret =>
      -- the descriptor that is returned was not open
      refine Function.update_of_ne (fun heq => ?_) _ _
      rcases c.apply_spec s.v with ⟨-, hfail, -⟩ | ⟨file, -, -, hnum, -⟩
      · exact hret hfail
      · have hnone := h.table s.v.nextFd
        rw [h.above _ (Nat.le_refl _), ← hnum, ← heq, hopen] at hnone
        cases hnone
  | close fd' =>
    simp only [FdCall.opens]
    split
    · exact Function.update_of_ne (fun heq => hclose (by rw [heq])) _ _
    · rfl
  | _ => rfl

end Calls

/-- **Every run** keeps it. -/
theorem fdInv_run {m : ByteMem} {cwd : Str} {s : FdState}
    (h : fdLts.Reachable (FdState.init m cwd) s) : FdInv s := by
  refine h.invariant (fun s c t hs hstep => ?_) (fdInv_init m cwd)
  rw [hstep]
  exact hs.next c

/-! ## The table as a map -/

/-- **The descriptor table is a faithful partial map.**  In every reachable state each open
descriptor denotes the object that it was returned for, and it still does after any call but
its own `close`; a descriptor that is returned was not open; and a call on an integer that is
not open returns -1 and changes nothing. -/
theorem descriptors_map {m : ByteMem} {cwd : Str} {s : FdState}
    (h : fdLts.Reachable (FdState.init m cwd) s) :
    (∀ k : Nat, (s.v.fdTable k).map VfsFile.object = s.opens k) ∧
    (∀ c : FdCall, ∀ fd o, s.opens fd = some o → c ≠ .close fd →
      (getFile (c.apply s.v) fd).map VfsFile.object = some o) ∧
    (∀ c : OpenCall, (c.apply s.v).1 ≠ -1 → s.opens (c.apply s.v).1 = none ∧
      0 ≤ (c.apply s.v).1 ∧ (c.apply s.v).1 < maxFd ∧
      (getFile (c.apply s.v).2 (c.apply s.v).1).map VfsFile.object =
        (c.file s.v).1.map VfsFile.object) ∧
    ∀ fd, s.opens fd = none → (∀ count, vfsRead s.v fd count = (none, s.v)) ∧
      (∀ buf, vfsWrite s.v fd buf = (-1, s.v)) ∧ vfsClose s.v fd = (-1, s.v) := by
  have hinv := fdInv_run h
  refine ⟨hinv.table, ?_, ?_, ?_⟩
  · intro c fd o hopen hclose
    have hview : (getFile (c.apply s.v) fd).map VfsFile.object = c.opens s fd :=
      (hinv.next c).getFile_object fd
    rw [hview, ← hopen]
    exact hinv.opens_of_ne hopen hclose
  · intro c hret
    rcases c.apply_spec s.v with ⟨-, hfail, -⟩ | ⟨file, hfile, hlt, hnum, htable, hnext⟩
    · exact absurd hfail hret
    · have hnone := hinv.table s.v.nextFd
      rw [hinv.above _ (Nat.le_refl _)] at hnone
      rw [hnum, hfile]
      refine ⟨hnone.symm, by omega, by exact_mod_cast hlt, ?_⟩
      rw [getFile, if_neg (by omega), htable]
      simp
  · intro fd hfd
    have hnone : getFile s.v fd = none := by
      rw [← Option.map_eq_none_iff, hinv.getFile_object]
      exact hfd
    refine ⟨?_, ?_, ?_⟩
    · intro count
      rw [vfsRead, hnone]
    · intro buf
      rw [vfsWrite, hnone]
    · rw [vfsClose, hnone]

/-- The name `a` in the root. -/
def slashA : Str := str ['/', 'a']

/-- `/a` is opened, closed and opened again: nothing happens on the first descriptor, and a write
to it leaves the second one alone. -/
theorem descriptors_map_close : ∃ s, fdLts.Run (FdState.init (fun _ => 0) [slash])
      [.opening (.openPath slashA), .close 0, .opening (.openPath slashA)] s ∧
    vfsClose s.v 0 = (-1, s.v) ∧
    (getFile (vfsWrite s.v 0 [1]).2 1).map VfsFile.object = some (.abyssfs, 0) := by
  obtain ⟨s, hs⟩ : ∃ s, s = (FdCall.opening (.openPath slashA)).next ((FdCall.close 0).next
    ((FdCall.opening (.openPath slashA)).next (FdState.init (fun _ => 0) [slash]))) := ⟨_, rfl⟩
  have hrun : fdLts.Run (FdState.init (fun _ => 0) [slash])
      [.opening (.openPath slashA), .close 0, .opening (.openPath slashA)] s :=
    Lts.run_cons_iff.2 ⟨_, rfl, Lts.run_cons_iff.2 ⟨_, rfl, Lts.run_cons_iff.2 ⟨_, hs,
      Lts.run_nil_iff.2 rfl⟩⟩⟩
  have hclosed : s.opens 0 = none := by
    rw [hs]
    decide +kernel
  have hopen : s.opens 1 = some (.abyssfs, 0) := by
    rw [hs]
    decide +kernel
  obtain ⟨-, hkeep, -, hnone⟩ := descriptors_map ⟨_, hrun⟩
  exact ⟨s, hrun, (hnone 0 hclosed).2.2, hkeep (.write 0 [1]) 1 _ hopen (by simp)⟩

/-! ## Descriptors as a resource -/

/-- How many descriptors are open. -/
def openCount (v : Vfs) : Nat := ((List.range maxFd).filter fun k => (v.fdTable k).isSome).length

/-- **Descriptors do not come back.**  In every reachable state with fewer than `MAX_FD` open
descriptors, a call whose file-system call succeeds returns a descriptor if and only if fewer
than `MAX_FD` have been returned before. -/
theorem reuse_iff {m : ByteMem} {cwd : Str} {s : FdState}
    (h : fdLts.Reachable (FdState.init m cwd) s) (c : OpenCall) (_hopen : openCount s.v < maxFd)
    (hfile : (c.file s.v).1.isSome) :
    (c.apply s.v).1 ≠ -1 ∧ 0 ≤ (c.apply s.v).1 ∧ (c.apply s.v).1 < maxFd ↔
      s.returned < maxFd := by
  have hinv := fdInv_run h
  rw [← hinv.count]
  rcases c.apply_spec s.v with ⟨hfail, hret, -⟩ | ⟨file, -, hlt, hret, -⟩
  · have hle : maxFd ≤ s.v.nextFd := by
      rcases hfail with hnone | hle
      · rw [hnone] at hfile
        cases hfile
      · exact hle
    exact iff_of_false (fun hok => hok.1 hret) (Nat.not_lt.2 hle)
  · rw [hret]
    exact iff_of_true ⟨by omega, by omega, by exact_mod_cast hlt⟩ hlt

/-- What `vfs_open` does with it. -/
theorem vfsOpen_slashA {v : Vfs} (hns : v.ns = []) (hpos : v.heap.pos + sizeofVfsFile ≤ heapSize) :
    fsOpen v slashA = (some { fOps := .abyssfs, privateData := 0, fPos := 0 },
      { v with heap := { pos := v.heap.pos + sizeofVfsFile } }) := by
  have htarget : openTarget v.ns slashA = (.abyssfs, slashA) := by
    rw [hns]
    decide
  have hmod : (v.heap.pos + sizeofVfsFile) % 2 ^ 64 = v.heap.pos + sizeofVfsFile :=
    Nat.mod_eq_of_lt (by rw [heapSize] at hpos; omega)
  have hk : kalloc v.heap sizeofVfsFile =
      some (v.heap.pos, { pos := v.heap.pos + sizeofVfsFile }) := by
    rw [kalloc, hmod, if_neg (by omega)]
  unfold fsOpen
  rw [htarget]
  dsimp only
  rw [abyssfsOpen, hk]

/-- The first descriptor is returned. -/
theorem reuse_iff_first :
    0 ≤ (vfsOpen (vfsInit (fun _ => 0) [slash]) slashA).1 := by
  have hns : (vfsInit (fun _ => 0) [slash]).ns = [] := rfl
  have hfile := congrArg Prod.fst (vfsOpen_slashA hns (by decide))
  exact ((reuse_iff (Lts.Reachable.refl (FdState.init (fun _ => 0) [slash])) (.openPath slashA)
    (by decide) (Option.isSome_iff_exists.2 ⟨_, hfile⟩)).2 (by decide)).2.1

/-- `a` opened and closed `n` times: no descriptor is open, and `n` have been returned. -/
theorem open_close_run {n : Nat} (hn : n ≤ maxFd) :
    ∃ s, fdLts.Reachable (FdState.init (fun _ => 0) [slash]) s ∧ s.returned = n ∧
      (∀ k, s.v.fdTable k = none) ∧
      s.v.heap.pos = blockSize * totalBlocks + 2 * sizeofSuperBlock + sizeofVfsFile * n ∧
      s.v.ns = [] ∧ s.v.ram = ramfsInit := by
  induction n with
  | zero => exact ⟨_, Lts.Reachable.refl _, rfl, fun _ => rfl, rfl, rfl, rfl⟩
  | succ n ih =>
    obtain ⟨s, hs, hcount, htable, hpos, hns, hram⟩ := ih (by omega)
    have hnext : s.v.nextFd = n := (fdInv_run hs).count.trans hcount
    have hroom : s.v.heap.pos + sizeofVfsFile ≤ heapSize := by
      simp only [hpos, blockSize, totalBlocks, sizeofSuperBlock, sizeofVfsFile,
        heapSize, maxFd] at hn ⊢
      omega
    have hopen : (OpenCall.openPath slashA).apply s.v = ((n : Int), { s.v with
        heap := { pos := s.v.heap.pos + sizeofVfsFile }
        fdTable := fun k => if k = n then
          some { fOps := .abyssfs, privateData := 0, fPos := 0 } else s.v.fdTable k
        nextFd := n + 1 }) := by
      rw [OpenCall.apply_eq, OpenCall.file, vfsOpen_slashA hns hroom, withFd,
        allocFd_of_lt (by dsimp only; omega)]
      dsimp only
      rw [hnext]
    -- the new descriptor is closed at once
    obtain ⟨t, ht⟩ : ∃ t, t = (FdCall.opening (.openPath slashA)).next s := ⟨_, rfl⟩
    have htv : t.v = ((OpenCall.openPath slashA).apply s.v).2 := by rw [ht]; rfl
    have htr : t.returned = n + 1 := by
      rw [ht]
      simp only [FdCall.next, FdCall.returned, hopen, hcount]
      rw [if_neg (by omega)]
    rw [hopen] at htv
    have hclose : vfsClose t.v n = (0, { t.v with
        fdTable := fun k => if k = n then none else t.v.fdTable k }) := by
      have hget : getFile t.v n = some { fOps := .abyssfs, privateData := 0, fPos := 0 } := by
        rw [getFile, if_neg (by omega), htv]
        simp
      rw [vfsClose, hget]
      simp
    refine ⟨(FdCall.close n).next t, (hs.tail ht).tail rfl, ?_, ?_, ?_, ?_, ?_⟩
    · exact htr
    · intro k
      simp only [FdCall.next, FdCall.apply, hclose]
      split
      · rfl
      · next hk =>
        rw [htv]
        dsimp only
        rw [if_neg hk]
        exact htable k
    · simp only [FdCall.next, FdCall.apply, hclose]
      rw [htv, Nat.mul_succ, ← Nat.add_assoc, ← hpos]
    · simp only [FdCall.next, FdCall.apply, hclose]
      rw [htv]
      exact hns
    · simp only [FdCall.next, FdCall.apply, hclose]
      rw [htv]
      exact hram

/-- After 32 times, no descriptor is open and none can be opened. -/
theorem descriptors_run_out :
    ∃ s, fdLts.Reachable (FdState.init (fun _ => 0) [slash]) s ∧ openCount s.v < maxFd ∧
      ((OpenCall.openPath slashA).file s.v).1.isSome ∧
      ((OpenCall.openPath slashA).apply s.v).1 = -1 := by
  obtain ⟨s, hs, hcount, htable, hpos, hns, -⟩ := open_close_run (Nat.le_refl maxFd)
  have hnext : s.v.nextFd = maxFd := (fdInv_run hs).count.trans hcount
  have hroom : s.v.heap.pos + sizeofVfsFile ≤ heapSize := by
    rw [hpos]
    decide
  have hfile := vfsOpen_slashA hns hroom
  refine ⟨s, hs, ?_, ?_, ?_⟩
  · simp [openCount, htable, maxFd]
  · rw [OpenCall.file, hfile]
    rfl
  · rw [OpenCall.apply_eq, OpenCall.file, hfile, withFd,
      allocFd_of_le (by dsimp only; omega)]

/-! ## Creating in RAMFS -/

/-- **A creation that keeps its word**: if it fails, the slots of RAMFS and the descriptors are
as before; if it returns a descriptor, one slot and one entry have changed. -/
def CreatesWhole (v : Vfs) (path : Str) : Prop :=
  ((vfsCreate v path).1 = -1 → (vfsCreate v path).2.ram = v.ram ∧
    (vfsCreate v path).2.fdTable = v.fdTable ∧ (vfsCreate v path).2.nextFd = v.nextFd) ∧
  ((vfsCreate v path).1 ≠ -1 →
    (∃ i < maxFiles, (vfsCreate v path).2.ram.files i ≠ v.ram.files i ∧
      ∀ j, j ≠ i → (vfsCreate v path).2.ram.files j = v.ram.files j) ∧
    ∃ k < maxFd, (vfsCreate v path).2.fdTable k ≠ v.fdTable k ∧
      ∀ j, j ≠ k → (vfsCreate v path).2.fdTable j = v.fdTable j)

/-- The path of a file in `/tmp` goes to RAMFS as it is. -/
theorem fsCreate_tmp (v : Vfs) {path : Str} (hpath : tmpSlash <+: path) :
    fsCreate v path = ((ramfsCreate v.heap v.ram path).1,
      { v with heap := (ramfsCreate v.heap v.ram path).2.1
               ram := (ramfsCreate v.heap v.ram path).2.2 }) := by
  have hhead : path.head? = some slash := by
    obtain ⟨rest, rfl⟩ := hpath
    rfl
  have htarget : createTarget v.mounts v.cwd path = some (.ramfs, path) := by
    unfold createTarget
    rw [joinCwd_of_absolute hhead]
    exact if_pos (Or.inl (strncmp_tmpSlash.2 hpath))
  unfold fsCreate
  rw [htarget]

/-- What `ramfs_create` does with a path in `/tmp`. -/
theorem ramfsCreate_tmp (heap : Heap) (ram : RamFs) {path : Str} (hpath : tmpSlash <+: path) :
    ramfsCreate heap ram path =
      match findFree ram with
      | none => (none, heap, ram)
      | some i =>
        match kalloc heap sizeofVfsFile with
        | none => (none, heap, ram.setFile i
            { mem := (strcpy (ram.files i).mem 0 path).set contentOff 0, size := 0, used := false })
        | some (_, heap) => (some { fOps := .ramfs, privateData := i, fPos := 0 }, heap,
            ram.setFile i
              { mem := (strcpy (ram.files i).mem 0 path).set contentOff 0, size := 0,
                used := true }) := by
  have hfull : ramfsFullPath path = path := if_neg (not_not.2 (strncmp_tmpSlash.2 hpath))
  unfold ramfsCreate
  cases findFree ram <;> cases kalloc heap sizeofVfsFile <;> simp only [hfull]

/-- **When `vfs_create` keeps its word.**  In every reachable state and for every path in
`/tmp`: if there is no free slot, if there are memory for the handle and a descriptor, or if
the memory is missing and the slot holds the path already. -/
theorem create_whole_iff {m : ByteMem} {cwd : Str} {s : FdState}
    (h : fdLts.Reachable (FdState.init m cwd) s) {path : Str} (hpath : tmpSlash <+: path) :
    CreatesWhole s.v path ↔ findFree s.v.ram = none ∨
      (kalloc s.v.heap sizeofVfsFile).isSome ∧ s.v.nextFd < maxFd ∨
      kalloc s.v.heap sizeofVfsFile = none ∧
        ∃ i, findFree s.v.ram = some i ∧ HoldsAlready (s.v.ram.files i) path := by
  have hinv := fdInv_run h
  unfold CreatesWhole
  rw [vfsCreate_eq, fsCreate_tmp s.v hpath, ramfsCreate_tmp s.v.heap s.v.ram hpath]
  cases hfree : findFree s.v.ram with
  | none => exact iff_of_true ⟨fun _ => ⟨rfl, rfl, rfl⟩, fun hret => absurd rfl hret⟩ (Or.inl rfl)
  | some i =>
    obtain ⟨hi, hunused⟩ := findFree_eq_some hfree
    cases hk : kalloc s.v.heap sizeofVfsFile with
    | none =>
      -- the slot is free again, but its bytes are those of the new file
      dsimp only [withFd]
      constructor
      · rintro ⟨hfail, -⟩
        have hsame := congrArg RamfsFile.mem (setFile_eq_self_iff.1 (hfail rfl).1)
        have hsize := congrArg RamfsFile.size (setFile_eq_self_iff.1 (hfail rfl).1)
        exact Or.inr (Or.inr ⟨rfl, i, rfl, hsame, hsize.symm⟩)
      · rintro (hnone | ⟨hsome, -⟩ | ⟨-, k, hk', hmem, hsize⟩)
        · cases hnone
        · cases hsome
        · rw [Option.some.injEq] at hk'
          subst hk'
          refine ⟨fun _ => ⟨setFile_eq_self_iff.2 ?_, rfl, rfl⟩, fun hret => absurd rfl hret⟩
          rw [hmem, ← hsize, ← hunused]
    | some x =>
      have hchanged : ∀ mem : ByteMem,
          (⟨mem, 0, true⟩ : RamfsFile) ≠ s.v.ram.files i := by
        intro mem heq
        rw [← heq] at hunused
        cases hunused
      dsimp only [withFd]
      by_cases hle : maxFd ≤ s.v.nextFd
      · -- the slot is taken, and no descriptor leads to it
        simp only [allocFd_of_le, hle]
        refine iff_of_false (fun hkeeps => ?_) ?_
        · exact hchanged _ (setFile_eq_self_iff.1 (hkeeps.1 trivial).1)
        · rintro (hnone | ⟨-, hlt⟩ | ⟨hnone, -⟩)
          · cases hnone
          · omega
          · cases hnone
      · have hlt := Nat.not_le.1 hle
        simp only [allocFd_of_lt, hlt]
        refine iff_of_true ⟨?_, fun _ => ⟨⟨i, hi, ?_, ?_⟩, s.v.nextFd, hlt, ?_,
          fun j hj => if_neg hj⟩⟩ (Or.inr (Or.inl ⟨rfl, trivial⟩))
        · intro hret
          omega
        · rw [setFile_self]
          exact hchanged _
        · intro j hj
          exact setFile_of_ne hj
        · rw [if_pos rfl, hinv.above _ (Nat.le_refl _)]
          simp

/-- The file `a` in `/tmp`. -/
def tmpA : Str := tmpSlash ++ str ['a']

theorem tmpA_prefix : tmpSlash <+: tmpA := List.prefix_append tmpSlash _

/-- After `vfs_init`, the creation of `/tmp/a` keeps its word. -/
theorem create_whole_iff_first : CreatesWhole (vfsInit (fun _ => 0) [slash]) tmpA :=
  (create_whole_iff (Lts.Reachable.refl (FdState.init (fun _ => 0) [slash]))
    tmpA_prefix).2 (Or.inr (Or.inl ⟨by decide, by decide⟩))

/-- After 32 descriptors, `vfs_create("/tmp/a")` returns -1 and the file is there. -/
theorem create_leaves_file :
    ∃ s, fdLts.Reachable (FdState.init (fun _ => 0) [slash]) s ∧ (vfsCreate s.v tmpA).1 = -1 ∧
      ((vfsCreate s.v tmpA).2.ram.files 0).used = true ∧ ¬ CreatesWhole s.v tmpA := by
  obtain ⟨s, hs, hcount, -, hpos, -, hram⟩ := open_close_run (Nat.le_refl maxFd)
  have hnext : s.v.nextFd = maxFd := (fdInv_run hs).count.trans hcount
  have hfree : findFree s.v.ram = some 0 := by
    rw [hram]
    rfl
  have hroom : (s.v.heap.pos + sizeofVfsFile) % 2 ^ 64 ≤ heapSize := by
    rw [hpos]
    decide
  obtain ⟨x, hk⟩ : ∃ x, kalloc s.v.heap sizeofVfsFile = some x := ⟨_, if_neg (Nat.not_lt.2 hroom)⟩
  have hcall : (vfsCreate s.v tmpA).1 = -1 ∧ ((vfsCreate s.v tmpA).2.ram.files 0).used = true := by
    rw [vfsCreate_eq, fsCreate_tmp s.v tmpA_prefix,
      ramfsCreate_tmp s.v.heap s.v.ram tmpA_prefix, hfree]
    dsimp only
    rw [hk]
    dsimp only [withFd]
    rw [allocFd_of_le (by dsimp only; omega)]
    exact ⟨rfl, rfl⟩
  refine ⟨s, hs, hcall.1, hcall.2, ?_⟩
  intro hkeeps
  have hused := hcall.2
  rw [(hkeeps.1 hcall.1).1, hram] at hused
  cases hused

end OsArm
