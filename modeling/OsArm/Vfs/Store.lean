import OsArm.Lib.FileStore
import OsArm.Ram.Listing
import OsArm.Vfs.Descriptors

/-!
# RAMFS behind the VFS as a store of files

`vfs_create`, `vfs_open`, `vfs_unlink`, `vfs_read`, `vfs_write` and `vfs_close` on paths in
`/tmp`, in any order.

* `storeLts` — the calls with their answers.
* `StoreOf` — the VFS against a `FileStore`; `StoreOf.create`, `StoreOf.read` and so on are one
  call each.
* `vfs_refines_store` — every run is a run of the store, with 16 slots of 4096 bytes and 32
  descriptors.
* `vfs_refines_map` — and of the map of files by path, for callers that create no path twice and
  close what they unlink; `vfs_lists_map` — what the listing of `/tmp` then shows.
-/

namespace OsArm

/-! ## The calls -/

/-- A path in `/tmp` that fits a slot. -/
@[ext]
structure RamPath where
  bytes : Str
  tmp : tmpSlash <+: bytes
  length_lt : bytes.length < maxPath
  nul_free : NulFree bytes

instance ramPathDecidableEq : DecidableEq RamPath :=
  fun p q => decidable_of_iff (p.bytes = q.bytes) RamPath.ext_iff.symm

/-- The entry points send it to RAMFS as it is. -/
theorem RamPath.selects (p : RamPath) (cwd : Str) :
    Selects (Heap.mk 0) 0 cwd p.bytes .ramfs p.bytes := selects_tmp p.tmp

/-- A descriptor or a number of bytes, or -1. -/
def answer : Option Nat → Int
  | none => -1
  | some n => n

/-- What RAMFS and the VFS have room for. -/
def ramLimits : FileLimits where
  slots := maxFiles
  fds := maxFd
  size := maxContent

/-- How many handles the heap has room for. -/
def handleRoom (heap : Heap) : Nat := (heapSize - heap.pos) / sizeofVfsFile

/-- The calls of `vfs.c` on files in `/tmp`; no buffer has 2^63 bytes. -/
def storeLts : Lts Vfs (FileEvent RamPath UInt8) where
  step v e w :=
    match e with
    | .create p fd => vfsCreate v p.bytes = (answer fd, w)
    | .openPath p fd => vfsOpen v p.bytes = (answer fd, w)
    | .unlink p found => vfsUnlink v p.bytes = (if found then 0 else -1, w)
    | .read fd count out => count < 2 ^ 63 ∧ vfsRead v fd count = (out, w)
    | .write fd buf n => buf.length < 2 ^ 63 ∧ vfsWrite v fd buf = (answer n, w)
    | .close fd found => vfsClose v fd = (if found then 0 else -1, w)

/-- The caller creates no path that a slot in use holds, and has closed what it unlinks. -/
def CarefulCall (v : Vfs) : FileEvent RamPath UInt8 → Prop
  | .create p _ => findUsed v.ram p.bytes = none
  | .unlink p _ => ∀ fd file, getFile v fd = some file → ¬ HoldsPath v.ram file.privateData p.bytes
  | _ => True

theorem answer_inj {a b : Option Nat} (h : answer a = answer b) : a = b := by
  cases a with
  | none =>
    cases b with
    | none => rfl
    | some n =>
      rw [answer, answer] at h
      omega
  | some m =>
    cases b with
    | none =>
      rw [answer, answer] at h
      omega
    | some n =>
      rw [answer, answer] at h
      rw [Int.ofNat_inj.1 h]

theorem found_inj {a b : Bool} (h : (if a then (0 : Int) else -1) = if b then 0 else -1) :
    a = b := by
  cases a <;> cases b <;> first | rfl | cases h

/-! ## Slots and descriptors -/

section Parts

variable {ram : RamFs} {v w : Vfs} {i n : Nat} {file : VfsFile}

theorem findFree_eq_some_iff : findFree ram = some i ↔
    i < maxFiles ∧ (ram.files i).used = false ∧ ∀ k < i, ¬ (ram.files k).used = false := by
  unfold findFree
  rw [List.find?_range_eq_some]
  simp only [decide_eq_true_eq, List.mem_range, Bool.not_eq_true', decide_eq_false_iff_not,
    Bool.not_eq_true]
  exact ⟨fun h => ⟨h.2.1, h.1, h.2.2⟩, fun h => ⟨h.2.1, h.1, h.2.2⟩⟩

theorem findFree_eq_none_iff : findFree ram = none ↔ ∀ k < maxFiles,
    ¬ (ram.files k).used = false := by
  unfold findFree
  rw [List.find?_eq_none]
  simp only [List.mem_range, decide_eq_true_eq, Bool.not_eq_true]

/-- What one entry of the table changes. -/
theorem getFile_update {x : Option VfsFile} (hn : n < maxFd)
    (htable : w.fdTable = fun k => if k = n then x else v.fdTable k) :
    getFile w = Function.update (getFile v) n x := by
  funext fd
  by_cases hfd : fd = n
  · rw [hfd, Function.update_self, getFile, if_neg (by omega), Int.toNat_natCast, htable]
    exact if_pos rfl
  · rw [Function.update_of_ne hfd, getFile, getFile, htable]
    split
    · rfl
    · exact if_neg (by omega)

/-- The descriptors that `get_file` accepts. -/
theorem getFile_natCast_of_some {fd : Int} (h : getFile v fd = some file) :
    ∃ n : Nat, n < maxFd ∧ fd = n := by
  unfold getFile at h
  split at h
  · cases h
  · exact ⟨fd.toNat, by omega, by omega⟩

/-- `ramfs_read` from any position. -/
theorem ramfsRead_any (ram : RamFs) (file : VfsFile) (count : Nat)
    (hsize : (ram.files file.privateData).size ≤ maxContent) (hcount : file.fPos + count < 2 ^ 64) :
    ramfsRead ram file count =
      (((ram.files file.privateData).bytes.drop file.fPos).take count,
        { file with fPos := file.fPos +
          (((ram.files file.privateData).bytes.drop file.fPos).take count).length }) := by
  rcases Nat.le_total file.fPos (ram.files file.privateData).size with hle | hge
  · exact ramfsRead_eq hle hsize hcount
  · have hnone : (ram.files file.privateData).bytes.drop file.fPos = [] :=
      List.drop_of_length_le (by rw [RamfsFile.bytes, length_memcpyFrom]; exact hge)
    rw [hnone, List.take_nil]
    exact if_pos hge

/-- `ramfs_write` at any position: what fits into the slot; a gap keeps its old bytes. -/
theorem ramfsWrite_any (ram : RamFs) (file : VfsFile) {buf : List UInt8}
    (hpos : file.fPos ≤ maxContent) (hsize : (ram.files file.privateData).size ≤ maxContent)
    (hcount : buf.length < 2 ^ 63) (hn : n = min buf.length (maxContent - file.fPos)) :
    n = 0 ∧ ramfsWrite ram file buf = (0, file, ram) ∨
    0 < n ∧ ∃ f gap, f.used = (ram.files file.privateData).used ∧
      (∀ x < contentOff, f.mem x = (ram.files file.privateData).mem x) ∧ f.size ≤ maxContent ∧
      gap.length = file.fPos - (ram.files file.privateData).size ∧
      f.bytes = splice ((ram.files file.privateData).bytes ++ gap) (buf.take n) file.fPos ∧
      ramfsWrite ram file buf =
        (n, { file with fPos := file.fPos + n }, ram.setFile file.privateData f) := by
  have hclip : (if (file.fPos + buf.length) % 2 ^ 64 > maxContent then
      (2 ^ 64 + maxContent - file.fPos) % 2 ^ 64 else buf.length) = n := by
    rw [Nat.mod_eq_of_lt (by rw [maxContent] at hpos; omega), hn]
    rw [maxContent] at hpos ⊢
    split <;> omega
  have hend : file.fPos + n ≤ maxContent := by omega
  rcases Nat.eq_zero_or_pos n with hzero | hpos'
  · refine Or.inl ⟨hzero, ?_⟩
    rw [ramfsWrite, hclip, hzero]
    rfl
  · refine Or.inr ⟨hpos', { ram.files file.privateData with
      mem := memcpyTo (ram.files file.privateData).mem (contentOff + file.fPos) buf n
      size := max (ram.files file.privateData).size (file.fPos + n) },
      memcpyFrom (ram.files file.privateData).mem (contentOff + (ram.files file.privateData).size)
        (file.fPos - (ram.files file.privateData).size), rfl, ?_, by dsimp only; omega,
      length_memcpyFrom _ _ _, ?_, ?_⟩
    · intro x hx
      dsimp only
      rw [memcpyTo_eq, ByteMem.blit_outside (by omega)]
    · have hjoin : memcpyFrom (ram.files file.privateData).mem contentOff
          (max (ram.files file.privateData).size file.fPos) = (ram.files file.privateData).bytes ++
          memcpyFrom (ram.files file.privateData).mem
            (contentOff + (ram.files file.privateData).size)
            (file.fPos - (ram.files file.privateData).size) := by
        refine List.ext_getElem? ?_
        intro k
        rw [RamfsFile.bytes, getElem?_memcpyFrom]
        by_cases hk : k < (ram.files file.privateData).size
        · rw [List.getElem?_append_left (by rwa [length_memcpyFrom]),
            getElem?_memcpyFrom, if_pos hk, if_pos (by omega)]
        · rw [List.getElem?_append_right (by rw [length_memcpyFrom]; omega), length_memcpyFrom,
            getElem?_memcpyFrom, Nat.add_assoc, Nat.add_sub_cancel' (Nat.not_lt.1 hk)]
          refine if_congr ?_ rfl rfl
          omega
      have hstore := memcpyFrom_memcpyTo (m := (ram.files file.privateData).mem) (a := contentOff)
        (Nat.le_max_right (ram.files file.privateData).size file.fPos)
          (show n ≤ buf.length by omega)
      rw [hjoin] at hstore
      rw [← hstore, RamfsFile.bytes]
      dsimp only
      congr 1
      omega
    · unfold ramfsWrite
      dsimp only
      rw [hclip, if_pos hpos', Nat.mod_eq_of_lt (by rw [maxContent] at hend; omega)]
      refine congrArg (fun k =>
        (n, { file with fPos := file.fPos + n }, ram.setFile file.privateData
        { ram.files file.privateData with
          mem := memcpyTo (ram.files file.privateData).mem (contentOff + file.fPos) buf n
          size := k })) ?_
      split <;> omega

end Parts

/-! ## The store in the VFS -/

/-- The handle of a slot at a position. -/
def handleAt (x : Nat × Nat) : VfsFile := { fOps := .ramfs, privateData := x.1, fPos := x.2 }

/-- **The store that the VFS implements**: the paths of the used slots, their bytes, and the open
descriptors. -/
structure StoreOf (v : Vfs) (s : FileStore RamPath UInt8) : Prop where
  mounts : v.mounts = bootMounts
  ns : v.ns = []
  name : ∀ i p, s.name i = some p ↔ HoldsPath v.ram i p.bytes
  free : ∀ i, s.name i = none ↔ (v.ram.files i).used = false
  data : ∀ i, s.data i = (v.ram.files i).bytes
  size : ∀ i, (v.ram.files i).size ≤ maxContent
  fds : ∀ fd, getFile v fd = (s.fds fd).map handleAt
  pos : ∀ fd i q, s.fds fd = some (i, q) → q ≤ maxContent
  next : s.next = v.nextFd
  heap : v.heap.pos ≤ heapSize
  room : s.room = handleRoom v.heap

namespace StoreOf

variable {v w : Vfs} {s t : FileStore RamPath UInt8} {i n : Nat} {p : RamPath}

theorem init (m : ByteMem) (cwd : Str) :
    StoreOf (vfsInit m cwd) (FileStore.init RamPath UInt8 (handleRoom (vfsInit m cwd).heap)) where
  mounts := rfl
  ns := rfl
  name i p := by
    constructor
    · intro h
      cases h
    · rintro ⟨hused, -⟩
      cases hused
  free i := iff_of_true rfl rfl
  data i := rfl
  size i := Nat.zero_le _
  fds fd := by
    unfold getFile
    split <;> rfl
  pos fd i q h := by cases h
  next := rfl
  heap := by
    show blockSize * totalBlocks + 2 * sizeofSuperBlock ≤ heapSize
    decide
  room := rfl

/-! ### The parts of the state -/

/-- `findFree` finds the first slot that has no name. -/
theorem first_free (h : StoreOf v s) :
    FileStore.First ramLimits (fun k => s.name k = none) i ↔ findFree v.ram = some i := by
  rw [findFree_eq_some_iff, FileStore.First]
  simp only [h.free]
  rfl

theorem none_free (h : StoreOf v s) : findFree v.ram = none ↔ ∀ k < ramLimits.slots,
    s.name k ≠ none := by
  rw [findFree_eq_none_iff]
  simp only [ne_eq, h.free]
  rfl

/-- `findUsed` finds the first slot with the name. -/
theorem first_used (h : StoreOf v s) :
    FileStore.First ramLimits (fun k => s.name k = some p) i ↔ findUsed v.ram p.bytes = some i := by
  rw [findUsed_eq_some_iff p.nul_free, FileStore.First]
  simp only [h.name]
  rfl

theorem none_used (h : StoreOf v s) :
    findUsed v.ram p.bytes = none ↔ ∀ k < ramLimits.slots, s.name k ≠ some p := by
  rw [findUsed_eq_none p.nul_free]
  simp only [ne_eq, h.name]
  exact forall_congr' fun k => imp_congr_right fun _ => not_and.symm

/-- **`kalloc` of a handle**: the heap has room for one less, or it has none. -/
theorem alloc (h : StoreOf v s) : s.room = 0 ∧ kalloc v.heap sizeofVfsFile = none ∨
    ∃ room a heap, s.room = room + 1 ∧ kalloc v.heap sizeofVfsFile = some (a, heap) ∧
      StoreOf { v with heap := heap } { s with room := room } := by
  have hle := h.heap
  have hroom := h.room
  rw [handleRoom, sizeofVfsFile, heapSize] at hroom
  rw [heapSize] at hle
  unfold kalloc
  rw [Nat.mod_eq_of_lt (by rw [sizeofVfsFile]; omega), sizeofVfsFile, heapSize]
  by_cases hfits : v.heap.pos + 304 > 1024 * 1024
  · exact Or.inl ⟨by omega, if_pos hfits⟩
  · refine Or.inr ⟨s.room - 1, v.heap.pos, { pos := v.heap.pos + 304 }, by omega, if_neg hfits,
      { h with heap := ?_, room := ?_ }⟩
    · rw [heapSize]
      dsimp only
      omega
    · rw [handleRoom, sizeofVfsFile, heapSize]
      dsimp only
      omega

/-- One slot changes. -/
theorem setSlot (h : StoreOf v s) {f : RamfsFile} {q : Option RamPath} {d : List UInt8}
    (hname : ∀ p, q = some p ↔ f.used = true ∧ f.mem.CStringAt 0 p.bytes)
    (hfree : q = none ↔ f.used = false) (hdata : d = f.bytes) (hsize : f.size ≤ maxContent) :
    StoreOf { v with ram := v.ram.setFile i f }
      { s with name := Function.update s.name i q, data := Function.update s.data i d } := by
  refine { h with name := ?_, free := ?_, data := ?_, size := ?_ }
  · intro k p
    by_cases hk : k = i
    · rw [hk, HoldsPath]
      dsimp only
      rw [Function.update_self, setFile_self]
      exact hname p
    · rw [HoldsPath]
      dsimp only
      rw [Function.update_of_ne hk, setFile_of_ne hk]
      exact h.name k p
  · intro k
    dsimp only
    by_cases hk : k = i
    · rw [hk, Function.update_self, setFile_self]
      exact hfree
    · rw [Function.update_of_ne hk, setFile_of_ne hk]
      exact h.free k
  · intro k
    dsimp only
    by_cases hk : k = i
    · rw [hk, Function.update_self, setFile_self]
      exact hdata
    · rw [Function.update_of_ne hk, setFile_of_ne hk]
      exact h.data k
  · intro k
    dsimp only
    by_cases hk : k = i
    · rw [hk, setFile_self]
      exact hsize
    · rw [setFile_of_ne hk]
      exact h.size k

/-- One descriptor changes. -/
theorem setFd (h : StoreOf v s) (hn : n < maxFd) {a : Option (Nat × Nat)}
    (hpos : ∀ i q, a = some (i, q) → q ≤ maxContent) :
    StoreOf { v with fdTable := fun k => if k = n then a.map handleAt else v.fdTable k }
      { s with fds := Function.update s.fds n a } := by
  refine { h with fds := ?_, pos := ?_ }
  · intro fd
    rw [getFile_update hn rfl]
    dsimp only
    by_cases hfd : fd = n
    · rw [hfd, Function.update_self, Function.update_self]
    · rw [Function.update_of_ne hfd, Function.update_of_ne hfd]
      exact h.fds fd
  · intro fd i q hfd
    dsimp only at hfd
    by_cases heq : fd = n
    · rw [heq, Function.update_self] at hfd
      exact hpos i q hfd
    · rw [Function.update_of_ne heq] at hfd
      exact h.pos fd i q hfd

/-- One descriptor is on a slot, at a position inside of it. -/
theorem moveFd (h : StoreOf v s) (hn : n < maxFd) (i : Nat) {q : Nat} (hq : q ≤ maxContent) :
    StoreOf { v with fdTable := fun k => if k = n then some (handleAt (i, q)) else v.fdTable k }
      { s with fds := Function.update s.fds n (some (i, q)) } := by
  refine h.setFd (a := some (i, q)) hn fun j r hr => ?_
  obtain ⟨-, rfl⟩ := Prod.mk.inj (Option.some.inj hr)
  exact hq

/-- **`alloc_fd`** on a slot. -/
theorem grant (h : StoreOf v s) (i : Nat) :
    (allocFd v (handleAt (i, 0))).1 = answer (s.grant ramLimits i).1 ∧
      StoreOf (allocFd v (handleAt (i, 0))).2 (s.grant ramLimits i).2 := by
  have hfds : ramLimits.fds = maxFd := rfl
  unfold FileStore.grant
  rw [hfds]
  by_cases hlt : v.nextFd < maxFd
  · have hfd := h.moveFd hlt i (Nat.zero_le maxContent)
    rw [allocFd_of_lt hlt, h.next, if_pos hlt]
    exact ⟨rfl, { hfd with next := rfl }⟩
  · rw [allocFd_of_le (Nat.not_lt.1 hlt), h.next, if_neg hlt]
    exact ⟨rfl, h⟩

/-- What an open descriptor refers to. -/
theorem handle (h : StoreOf v s) {fd : Int} {file : VfsFile} (hfd : getFile v fd = some file) :
    ∃ (n : Nat) (i q : Nat), n < maxFd ∧ fd = n ∧ s.fds fd = some (i, q) ∧ file = handleAt (i, q) ∧
      q ≤ maxContent := by
  obtain ⟨n, hn, hfdn⟩ := getFile_natCast_of_some hfd
  rw [h.fds] at hfd
  obtain ⟨⟨i, q⟩, hs, rfl⟩ := Option.map_eq_some_iff.1 hfd
  exact ⟨n, i, q, hn, hfdn, hs, rfl, h.pos fd i q hs⟩

theorem closed (h : StoreOf v s) {fd : Int} (hfd : getFile v fd = none) : s.fds fd = none := by
  rw [h.fds] at hfd
  exact Option.map_eq_none_iff.1 hfd

/-! ### One call -/

/-- What is said of each call: its answer, and the store afterwards. -/
def Answers (s : FileStore RamPath UInt8) (e : FileEvent RamPath UInt8) (w : Vfs) : Prop :=
  ∃ t, FileStore.Step ramLimits s e t ∧ StoreOf w t

/-- **`vfs_create`.** -/
theorem create (h : StoreOf v s) (p : RamPath) :
    ∃ fd, (vfsCreate v p.bytes).1 = answer fd ∧ Answers s (.create p fd)
      (vfsCreate v p.bytes).2 := by
  rw [vfsCreate_eq, fsCreate_tmp v p.tmp, ramfsCreate_tmp v.heap v.ram p.tmp]
  cases hfree : findFree v.ram with
  | none => exact ⟨none, rfl, s, .createFull (h.none_free.1 hfree), h⟩
  | some i =>
    have hfirst := h.first_free.2 hfree
    have hpath : ((strcpy (v.ram.files i).mem 0 p.bytes).set contentOff 0).CStringAt 0 p.bytes := by
      refine cstringAt_of_prefix (cstringAt_strcpy (v.ram.files i).mem 0 _) p.length_lt ?_
      intro x hx
      exact ByteMem.set_of_ne (by rw [contentOff]; omega)
    have hempty : ∀ used, [] = RamfsFile.bytes
        { mem := (strcpy (v.ram.files i).mem 0 p.bytes).set contentOff 0, size := 0,
          used := used } := fun _ => rfl
    rcases h.alloc with ⟨hroom, hk⟩ | ⟨room, a, heap, hroom, hk, htake⟩
    · -- the slot stays free, and has lost its bytes
      rw [hk]
      refine ⟨none, rfl, _, .createStarved hfirst hroom, ?_⟩
      exact h.setSlot (fun q => by simp) (by simp) (hempty false) (Nat.zero_le _)
    · rw [hk]
      have hslot := htake.setSlot (i := i) (q := some p) (fun q => ?_) (by simp)
        (hempty true) (Nat.zero_le _)
      · obtain ⟨hfd, hstore⟩ := hslot.grant i
        exact ⟨_, hfd, _, .create hfirst hroom, hstore⟩
      · rw [Option.some_inj]
        constructor
        · rintro rfl
          exact ⟨rfl, hpath⟩
        · rintro ⟨-, hq⟩
          exact RamPath.ext (hpath.unique hq p.nul_free q.nul_free)

/-- **`vfs_open`.** -/
theorem openPath (h : StoreOf v s) (p : RamPath) :
    ∃ fd, (vfsOpen v p.bytes).1 = answer fd ∧ Answers s (.openPath p fd) (vfsOpen v p.bytes).2 := by
  have htarget : openTarget v.ns p.bytes = (.ramfs, p.bytes) := by
    rw [h.ns]
    exact (p.selects v.cwd).openPath
  rw [vfsOpen_eq, fsOpen, htarget]
  dsimp only
  unfold ramfsOpen
  cases hfind : findUsed v.ram p.bytes with
  | none => exact ⟨none, rfl, s, .openNone (h.none_used.1 hfind), h⟩
  | some i =>
    have hfirst := h.first_used.2 hfind
    rcases h.alloc with ⟨hroom, hk⟩ | ⟨room, a, heap, hroom, hk, htake⟩
    · rw [hk]
      exact ⟨none, rfl, s, .openStarved hfirst hroom, h⟩
    · rw [hk]
      obtain ⟨hfd, hstore⟩ := htake.grant i
      exact ⟨_, hfd, _, .openPath hfirst hroom, hstore⟩

/-- **`vfs_unlink`.** -/
theorem unlink (h : StoreOf v s) (p : RamPath) :
    ∃ found, (vfsUnlink v p.bytes).1 = (if found then 0 else -1) ∧
      Answers s (.unlink p found) (vfsUnlink v p.bytes).2 := by
  have htarget : unlinkTarget v.mounts v.cwd p.bytes = some (.ramfs, p.bytes) := by
    rw [h.mounts]
    exact (p.selects v.cwd).unlink
  unfold vfsUnlink
  rw [htarget]
  dsimp only
  unfold ramfsUnlink
  cases hfind : findUsed v.ram p.bytes with
  | none => exact ⟨false, rfl, s, .unlinkNone (h.none_used.1 hfind), h⟩
  | some i =>
    refine ⟨true, rfl, _, .unlink (h.first_used.2 hfind), ?_⟩
    exact h.setSlot (fun q => by simp) (by simp) rfl (Nat.zero_le _)

/-- **`vfs_read`.** -/
theorem read (h : StoreOf v s) (fd : Int) {count : Nat} (hcount : count < 2 ^ 63) :
    Answers s (.read fd count (vfsRead v fd count).1) (vfsRead v fd count).2 := by
  cases hget : getFile v fd with
  | none =>
    rw [vfsRead, hget]
    exact ⟨s, .readClosed (h.closed hget), h⟩
  | some file =>
    obtain ⟨n, i, q, hn, rfl, hfd, rfl, hq⟩ := h.handle hget
    have hsize := h.size i
    have hcall : vfsRead v n count = (some ((((s.data i).drop q).take count)),
        v.setFile n (handleAt (i, q + (((s.data i).drop q).take count).length))) := by
      have hread := ramfsRead_any v.ram (handleAt (i, q)) count hsize
        (by rw [maxContent] at hq; dsimp only [handleAt]; omega)
      rw [vfsRead, hget, h.data]
      dsimp only [handleAt] at hread ⊢
      rw [hread]
    have hlen : q + (((s.data i).drop q).take count).length ≤ maxContent := by
      rw [List.length_take, List.length_drop, h.data, RamfsFile.bytes, length_memcpyFrom]
      omega
    rw [hcall]
    refine ⟨_, .read hfd rfl, ?_⟩
    exact h.moveFd hn i hlen

/-- **`vfs_write`.** -/
theorem write (h : StoreOf v s) (fd : Int) {buf : List UInt8} (hbuf : buf.length < 2 ^ 63) :
    ∃ n, (vfsWrite v fd buf).1 = answer n ∧ Answers s (.write fd buf n) (vfsWrite v fd buf).2 := by
  cases hget : getFile v fd with
  | none =>
    rw [vfsWrite, hget]
    exact ⟨none, rfl, s, .writeClosed (h.closed hget), h⟩
  | some file =>
    obtain ⟨d, i, q, hd, rfl, hfd, rfl, hq⟩ := h.handle hget
    generalize hn : min buf.length (maxContent - q) = n
    have hend : q + n ≤ maxContent := by omega
    rcases ramfsWrite_any v.ram (handleAt (i, q)) hq (h.size i) hbuf hn.symm with
      ⟨rfl, hcall⟩ | ⟨hpos, f, gap, hused, hpath, hsize, hgap, hbytes, hcall⟩
    · -- nothing fits
      have hwrite : vfsWrite v d buf = (0, v.setFile d (handleAt (i, q))) := by
        rw [vfsWrite, hget]
        dsimp only [handleAt] at hcall ⊢
        rw [hcall]
        rfl
      have hsame : { s with fds := Function.update s.fds d (some (i, q)) } = s := by
        rw [← hfd, Function.update_eq_self]
      have hstore := h.moveFd hd i hq
      rw [hsame] at hstore
      rw [hwrite]
      exact ⟨some 0, rfl, s, .writeNothing hfd hn, hstore⟩
    · have hwrite : vfsWrite v d buf = ((n : Int),
          { v.setFile d (handleAt (i, q + n)) with ram := v.ram.setFile i f }) := by
        rw [vfsWrite, hget]
        dsimp only [handleAt] at hcall ⊢
        rw [hcall]
      have hname : ∀ p, s.name i = some p ↔ f.used = true ∧ f.mem.CStringAt 0 p.bytes := by
        intro p
        rw [h.name, HoldsPath, hused]
        refine and_congr_right fun _ => ⟨fun hs => ?_, fun hs => ?_⟩
        · exact cstringAt_of_prefix hs p.length_lt hpath
        · exact cstringAt_of_prefix hs p.length_lt fun x hx => (hpath x hx).symm
      have hdata : splice (s.data i ++ gap) (buf.take n) q = f.bytes := by
        rw [hbytes, h.data]
        rfl
      have hslot := h.setSlot (i := i) hname (by rw [hused]; exact h.free i) hdata hsize
      rw [Function.update_eq_self] at hslot
      have hlen : gap.length = q - (s.data i).length := by
        rw [hgap, h.data, RamfsFile.bytes, length_memcpyFrom]
        rfl
      rw [hwrite]
      refine ⟨some n, rfl, _, .write hfd hn.symm hpos hlen, ?_⟩
      exact hslot.moveFd hd i hend

/-- **`vfs_close`.** -/
theorem close (h : StoreOf v s) (fd : Int) :
    ∃ found, (vfsClose v fd).1 = (if found then 0 else -1) ∧ Answers s (.close fd found)
      (vfsClose v fd).2 := by
  unfold vfsClose
  cases hget : getFile v fd with
  | none => exact ⟨false, rfl, s, .closeNone (h.closed hget), h⟩
  | some file =>
    obtain ⟨n, i, q, hn, rfl, hfd, rfl, hq⟩ := h.handle hget
    refine ⟨true, rfl, _, .close hfd, ?_⟩
    have hclosed := h.setFd (a := none) hn fun j r hr => by cases hr
    exact hclosed

end StoreOf

/-! ## Runs -/

/-- **One call** of the VFS is a call of the store. -/
theorem StoreOf.step {v w : Vfs} {s : FileStore RamPath UInt8} (h : StoreOf v s)
    {e : FileEvent RamPath UInt8} (hstep : storeLts.step v e w) : StoreOf.Answers s e w := by
  cases e with
  | create p fd =>
    have hcall : vfsCreate v p.bytes = (answer fd, w) := hstep
    obtain ⟨fd', hfd, hnext⟩ := h.create p
    rw [hcall] at hfd hnext
    rwa [answer_inj hfd]
  | openPath p fd =>
    have hcall : vfsOpen v p.bytes = (answer fd, w) := hstep
    obtain ⟨fd', hfd, hnext⟩ := h.openPath p
    rw [hcall] at hfd hnext
    rwa [answer_inj hfd]
  | unlink p found =>
    have hcall : vfsUnlink v p.bytes = (if found then 0 else -1, w) := hstep
    obtain ⟨found', hfound, hnext⟩ := h.unlink p
    rw [hcall] at hfound hnext
    rwa [found_inj hfound]
  | read fd count out =>
    obtain ⟨hcount, hcall⟩ := hstep
    have hnext := h.read fd hcount
    rwa [hcall] at hnext
  | write fd buf n =>
    obtain ⟨hbuf, hcall⟩ := hstep
    obtain ⟨n', hn, hnext⟩ := h.write fd hbuf
    rw [hcall] at hn hnext
    rwa [answer_inj hn]
  | close fd found =>
    have hcall : vfsClose v fd = (if found then 0 else -1, w) := hstep
    obtain ⟨found', hfound, hnext⟩ := h.close fd
    rw [hcall] at hfound hnext
    rwa [found_inj hfound]

/-- A caller that is careful with the VFS is careful with the store. -/
theorem StoreOf.careful {v : Vfs} {s : FileStore RamPath UInt8} (h : StoreOf v s)
    {e : FileEvent RamPath UInt8} (hcareful : CarefulCall v e) : s.Careful ramLimits e := by
  cases e with
  | create p fd =>
    have hno : findUsed v.ram p.bytes = none := hcareful
    exact h.none_used.1 hno
  | unlink p found =>
    have hclosed : ∀ fd file, getFile v fd = some file →
      ¬ HoldsPath v.ram file.privateData p.bytes := hcareful
    intro fd i q hfd hi
    have hget : getFile v fd = some (handleAt (i, q)) := by rw [h.fds, hfd]; rfl
    exact hclosed fd _ hget ((h.name i p).1 hi)
  | openPath p fd => trivial
  | read fd count out => trivial
  | write fd buf n => trivial
  | close fd found => trivial

theorem length_tmpA : tmpA.length < maxPath := by decide

theorem nulFree_tmpA : NulFree tmpA := by
  unfold NulFree
  decide

/-- The path `/tmp/a`. -/
def ramA : RamPath where
  bytes := tmpA
  tmp := tmpA_prefix
  length_lt := length_tmpA
  nul_free := nulFree_tmpA

/-- A file is written through one descriptor and read through another. -/
def writeThenRead : List (FileEvent RamPath UInt8) :=
  [.create ramA (some 0), .write 0 (str ['x']) (some 1), .openPath ramA (some 1),
    .read 1 5 (some (str ['x']))]

/-- What the four calls do after `vfs_init`. -/
theorem writeThenRead_run : ∃ v, (storeLts.only fun v e _ => CarefulCall v e).Run
    (vfsInit (fun _ => 0) [slash]) writeThenRead v ∧ findUsed v.ram ramA.bytes = some 0 ∧
      (v.ram.files 0).bytes = str ['x'] := by
  obtain ⟨v₀, hv₀⟩ : ∃ v, v = vfsInit (fun _ => 0) [slash] := ⟨_, rfl⟩
  have hcreate : (vfsCreate v₀ tmpA).1 = 0 ∧ findUsed v₀.ram tmpA = none := by
    rw [hv₀]
    decide +kernel
  have hwrite : (vfsWrite (vfsCreate v₀ tmpA).2 0 (str ['x'])).1 = 1 := by
    rw [hv₀]
    decide +kernel
  have hopen : (vfsOpen (vfsWrite (vfsCreate v₀ tmpA).2 0 (str ['x'])).2 tmpA).1 = 1 := by
    rw [hv₀]
    decide +kernel
  have hread : (vfsRead (vfsOpen (vfsWrite (vfsCreate v₀ tmpA).2 0 (str ['x'])).2 tmpA).2 1 5).1 =
      some (str ['x']) := by
    rw [hv₀]
    decide +kernel
  obtain ⟨v, hv⟩ : ∃ v, v =
      (vfsRead (vfsOpen (vfsWrite (vfsCreate v₀ tmpA).2 0 (str ['x'])).2 tmpA).2 1 5).2 :=
    ⟨_, rfl⟩
  have hfile : findUsed v.ram tmpA = some 0 ∧ (v.ram.files 0).bytes = str ['x'] := by
    rw [hv, hv₀]
    decide +kernel
  refine ⟨v, ?_, hfile⟩
  rw [← hv₀]
  exact Lts.run_cons_iff.2 ⟨_, ⟨Prod.ext hcreate.1 rfl, hcreate.2⟩,
    Lts.run_cons_iff.2 ⟨_, ⟨⟨by decide, Prod.ext hwrite rfl⟩, trivial⟩,
      Lts.run_cons_iff.2 ⟨_, ⟨Prod.ext hopen rfl, trivial⟩,
        Lts.run_cons_iff.2 ⟨_, ⟨⟨by decide, Prod.ext hread hv.symm⟩, trivial⟩,
          Lts.run_nil_iff.2 rfl⟩⟩⟩⟩

/-- **RAMFS behind the VFS is a store of files.**  Every run of the calls, in any order and
through any descriptors, open ones, closed ones and those of removed files, is a run of the store
with the same answers. -/
theorem vfs_refines_store {m : ByteMem} {cwd : Str} {tr : List (FileEvent RamPath UInt8)} {v : Vfs}
    (h : storeLts.Run (vfsInit m cwd) tr v) :
    ∃ s, (FileStore.lts RamPath UInt8 ramLimits).Run
      (FileStore.init RamPath UInt8 (handleRoom (vfsInit m cwd).heap)) tr s ∧ StoreOf v s :=
  h.simulates (fun _ _ _ _ hs hstep => hs.step hstep) (StoreOf.init m cwd)

/-- The store has what was written in its first slot. -/
theorem vfs_refines_store_write : ∃ s, (FileStore.lts RamPath UInt8 ramLimits).Run
    (FileStore.init RamPath UInt8 (handleRoom (vfsInit (fun _ => 0) [slash]).heap))
    writeThenRead s ∧
      s.data 0 = str ['x'] := by
  obtain ⟨v, hcareful, -, hbytes⟩ := writeThenRead_run
  have hrun : storeLts.Run (vfsInit (fun _ => 0) [slash]) writeThenRead v := by
    obtain ⟨w, hw, rfl⟩ := Lts.Run.simulates (M := storeLts.only fun v e _ => CarefulCall v e)
      (N := storeLts)
      (R := Eq) (fun u e w t hut hstep => ⟨w, hut ▸ hstep.1, rfl⟩) rfl hcareful
    exact hw
  obtain ⟨s, hs, hstore⟩ := vfs_refines_store hrun
  exact ⟨s, hs, by rw [hstore.data, hbytes]⟩

/-- The store and the map that a careful run leads to. -/
theorem careful_run {m : ByteMem} {cwd : Str} {tr : List (FileEvent RamPath UInt8)} {v : Vfs}
    (h : (storeLts.only fun v e _ => CarefulCall v e).Run (vfsInit m cwd) tr v) :
    ∃ s f, (FileMap.lts RamPath UInt8 ramLimits).Run
        (FileMap.init RamPath UInt8 (handleRoom (vfsInit m cwd).heap)) tr f ∧
      StoreOf v s ∧ FileStore.Maps ramLimits s f := by
  have hcareful : ∃ s, ((FileStore.lts RamPath UInt8 ramLimits).only fun s e _ =>
    s.Careful ramLimits e).Run
      (FileStore.init RamPath UInt8 (handleRoom (vfsInit m cwd).heap)) tr s ∧ StoreOf v s := by
    refine h.simulates (fun u e w s hs hstep => ?_) (StoreOf.init m cwd)
    obtain ⟨t, ht, hrel⟩ := hs.step hstep.1
    exact ⟨t, ⟨ht, hs.careful hstep.2⟩, hrel⟩
  obtain ⟨s, hrun, hs⟩ := hcareful
  obtain ⟨f, hmap, hmaps⟩ := FileStore.refines_map hrun
  exact ⟨s, f, hmap, hs, hmaps⟩

/-- **And for careful callers a map of files by path**: they read what was written under the path,
from the position of the descriptor on, no write leaves a gap, and at the end each path has the
content that the map has for it.  As in the map, a call also fails when memory or descriptors have
run out; a file that was created then is there, without a descriptor. -/
theorem vfs_refines_map {m : ByteMem} {cwd : Str} {tr : List (FileEvent RamPath UInt8)} {v : Vfs}
    (h : (storeLts.only fun v e _ => CarefulCall v e).Run (vfsInit m cwd) tr v) :
    ∃ f, (FileMap.lts RamPath UInt8 ramLimits).Run
        (FileMap.init RamPath UInt8 (handleRoom (vfsInit m cwd).heap)) tr f ∧
      ∀ p : RamPath, (findUsed v.ram p.bytes).map (fun i => (v.ram.files i).bytes) = f.file p := by
  obtain ⟨s, f, hmap, hs, hmaps⟩ := careful_run h
  refine ⟨f, hmap, fun p => ?_⟩
  cases hfind : findUsed v.ram p.bytes with
  | none => exact (hmaps.file_eq_none.2 (hmaps.no_name (hs.none_used.1 hfind))).symm
  | some i =>
    rw [hmaps.file_eq (hs.first_used.2 hfind).2.1, hs.data]
    rfl

/-- The map has it under the path. -/
theorem vfs_refines_map_write : ∃ f, (FileMap.lts RamPath UInt8 ramLimits).Run
    (FileMap.init RamPath UInt8 (handleRoom (vfsInit (fun _ => 0) [slash]).heap)) writeThenRead f ∧
      f.file ramA = some (str ['x']) := by
  obtain ⟨v, hcareful, hfind, hbytes⟩ := writeThenRead_run
  obtain ⟨f, hf, hfile⟩ := vfs_refines_map hcareful
  refine ⟨f, hf, ?_⟩
  rw [← hfile ramA, hfind, ← hbytes]
  rfl

/-! ## The listing of `/tmp` -/

/-- What a slot adds to the listing of `/tmp`. -/
theorem StoreOf.slotEntry_iff {v : Vfs} {s : FileStore RamPath UInt8} (h : StoreOf v s)
    {i : Nat} {n : Str} :
    (slotEntry v.ram tmpDir i).map Dirent.name = some n ↔
      slash ∉ n ∧ ∃ p, s.name i = some p ∧ p.bytes = tmpSlash ++ n := by
  have htmp : NulFree tmpDir := by unfold NulFree; decide
  cases hname : s.name i with
  | none =>
    have hunused : (v.ram.files i).used = false := (h.free i).1 hname
    have hnone : slotEntry v.ram tmpDir i = none :=
      if_neg fun hin => by rw [hunused] at hin; cases hin.1
    rw [hnone]
    constructor
    · intro hn
      cases hn
    · rintro ⟨-, p, hp, -⟩
      cases hp
  | some p =>
    obtain ⟨hused, hstring⟩ := (h.name i p).1 hname
    have hlen := p.length_lt
    have hpath : (v.ram.files i).path = p.bytes :=
      hstring.cstring_eq p.nul_free (by simp only [maxPath] at hlen ⊢; omega)
    have hentry : (slotEntry v.ram tmpDir i).map Dirent.name = childName tmpDir p.bytes := by
      rw [← childName_of_isFileInDir htmp, slotEntry, hpath]
      by_cases hin : isFileInDir p.bytes tmpDir = true
      · rw [if_pos ⟨hused, hin⟩, if_pos hin]
        rfl
      · rw [if_neg fun hboth => hin hboth.2, if_neg hin]
        rfl
    rw [hentry, childName_iff, and_comm]
    refine and_congr_right fun _ => ⟨fun hp => ⟨p, rfl, hp⟩, ?_⟩
    rintro ⟨q, hq, hp⟩
    rw [Option.some.inj hq]
    exact hp

/-- **The listing of `/tmp`** after a careful run shows, behind the dots, the names in `/tmp` of
the files of the map, each once. -/
theorem vfs_lists_map {m : ByteMem} {cwd : Str} {tr : List (FileEvent RamPath UInt8)} {v : Vfs}
    (h : (storeLts.only fun v e _ => CarefulCall v e).Run (vfsInit m cwd) tr v) (before : UInt8)
    {count : Nat} (hcount : maxFiles + 2 ≤ count) :
    ∃ f, (FileMap.lts RamPath UInt8 ramLimits).Run
        (FileMap.init RamPath UInt8 (handleRoom (vfsInit m cwd).heap)) tr f ∧
      ∃ names : List Str, (vfsReadDir before v tmpDir count).1.map (List.map Dirent.name) =
          some (str ['.'] :: str ['.', '.'] :: names) ∧ names.Nodup ∧
        ∀ n, n ∈ names ↔ slash ∉ n ∧ ∃ p : RamPath, p.bytes = tmpSlash ++ n ∧ f.file p ≠ none := by
  obtain ⟨s, f, hmap, hs, hmaps⟩ := careful_run h
  refine ⟨f, hmap, (List.range maxFiles).filterMap fun i =>
    (slotEntry v.ram tmpDir i).map Dirent.name, ?_, ?_, ?_⟩
  · have htarget : readDirTarget v.mounts tmpDir = some (.ramfs, tmpDir) := by
      rw [hs.mounts]
      decide
    have hread : (vfsReadDir before v tmpDir count).1 = some (ramfsReadDir v.ram tmpDir count) := by
      rw [vfsReadDir, hs.ns, resolveNamespacePath]
      dsimp only
      rw [htarget]
    have hlen : (ramDots ++ (List.range maxFiles).filterMap (slotEntry v.ram tmpDir)).length ≤
        count := by
      have hle := List.length_filterMap_le (slotEntry v.ram tmpDir) (List.range maxFiles)
      rw [List.length_range] at hle
      rw [List.length_append, ramDots]
      simp only [List.length_cons, List.length_nil]
      omega
    have hdir : ramfsReadDir v.ram tmpDir count =
        ramDots ++ (List.range maxFiles).filterMap (slotEntry v.ram tmpDir) :=
          List.take_of_length_le hlen
    rw [hread, hdir, Option.map_some, List.map_append, List.map_filterMap]
    rfl
  · refine List.Nodup.filterMap ?_ List.nodup_range
    intro i j n hi hj
    obtain ⟨-, p, hp, hbytes⟩ := hs.slotEntry_iff.1 hi
    obtain ⟨-, q, hq, hbytes'⟩ := hs.slotEntry_iff.1 hj
    obtain rfl : p = q := RamPath.ext (hbytes.trans hbytes'.symm)
    exact hmaps.inj i j p hp hq
  · intro n
    rw [List.mem_filterMap]
    constructor
    · rintro ⟨i, -, hi⟩
      obtain ⟨hslash, p, hp, hbytes⟩ := hs.slotEntry_iff.1 hi
      exact ⟨hslash, p, hbytes, by rw [hmaps.file_eq hp]; exact Option.some_ne_none _⟩
    · rintro ⟨hslash, p, hbytes, hfile⟩
      obtain ⟨d, hd⟩ := Option.ne_none_iff_exists'.1 hfile
      obtain ⟨i, hi, -⟩ := (hmaps.file p d).1 hd
      have hlt : i < maxFiles := hmaps.inside i (by rw [hi]; exact Option.some_ne_none p)
      exact ⟨i, List.mem_range.2 hlt, hs.slotEntry_iff.2 ⟨hslash, p, hi, hbytes⟩⟩

/-- With room for all entries. -/
theorem vfs_lists_map_write : ∃ v, (storeLts.only fun v e _ => CarefulCall v e).Run
    (vfsInit (fun _ => 0) [slash]) writeThenRead v ∧ ∃ names : List Str, names.Nodup ∧
      (vfsReadDir 0 v tmpDir 18).1.map (List.map Dirent.name) =
        some (str ['.'] :: str ['.', '.'] :: names) := by
  obtain ⟨v, hcareful, -⟩ := writeThenRead_run
  obtain ⟨f, -, names, hread, hnodup, -⟩ := vfs_lists_map hcareful 0 (Nat.le_refl 18)
  exact ⟨v, hcareful, names, hnodup, hread⟩

end OsArm
