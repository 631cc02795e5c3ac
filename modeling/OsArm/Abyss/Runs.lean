import OsArm.Abyss.Root
import OsArm.Lib.Transition

/-!
# Runs of AbyssFS

The operations of AbyssFS as one transition system, for a process whose
directory is `"/"`: any order of creating, removing, opening and of writes
through any handle ever returned, also when its file is gone.

* `RootInv.call` — what one call does to the entries of the root.
* `abyssfs_refines_entries` — **refinement**: with an abstract list that grows
  and shrinks with the answers of the calls, a listing shows that list.
* `abyssfs_blocks_exclusive` — **ownership**: in every reachable state, live
  inodes have different blocks, and the bitmap knows about them.
-/

namespace OsArm

/-! ## The transition system -/

/-- What the callers of AbyssFS hold: the heap, the file system and the handles
returned so far, in order. -/
structure AbyssState where
  heap : Heap
  fs : AbyssFs
  handles : List VfsFile

/-- A call; `write k buf` writes through the handle returned as the `k`-th. -/
inductive AbyssCall
  | create (n : EntryName)
  | mkdir (n : EntryName)
  | unlink (n : EntryName)
  | openPath (path : Str)
  | write (k : Nat) (buf : List UInt8)

namespace AbyssCall

/-- The state after a call. -/
def apply (s : AbyssState) : AbyssCall → AbyssState
  | create n =>
    let r := abyssfsCreate s.heap s.fs [slash] n.bytes
    { heap := r.2.1, fs := r.2.2, handles := s.handles ++ r.1.toList }
  | mkdir n => { s with fs := (abyssfsMkdir s.fs [slash] n.bytes).2 }
  | unlink n => { s with fs := (abyssfsUnlink s.fs n.bytes).2 }
  | openPath path =>
    let r := abyssfsOpen s.heap path
    { s with heap := r.2, handles := s.handles ++ r.1.toList }
  | write k buf =>
    match s.handles[k]? with
    | none => s
    | some file => { s with fs := (abyssfsWrite s.fs file buf).2 }

/-- The abstract list after a call, by the call's answer: a successful `create`
or `mkdir` adds its entry at the end, a successful `unlink` takes out the first
entry of its name. -/
def entries (s : AbyssState) (l : List Dirent) : AbyssCall → List Dirent
  | create n =>
    match (abyssfsCreate s.heap s.fs [slash] n.bytes).1 with
    | none => l
    | some file => l ++ [{ inode := file.privateData, name := n.bytes }]
  | mkdir n =>
    if (abyssfsMkdir s.fs [slash] n.bytes).1 = 0 then
      l ++ [{ inode := (allocInode s.fs).1, name := n.bytes }]
    else l
  | unlink n =>
    if (abyssfsUnlink s.fs n.bytes).1 = 0 then l.eraseP (fun e => e.name = n.bytes) else l
  | openPath _ => l
  | write _ _ => l

/-- There is room in the root block for what the call adds to the entries `l`. -/
def Fits (l : List Dirent) : AbyssCall → Prop
  | create n | mkdir n =>
    20 + (l.map fun e => recSize e.name.length).sum + recSize n.bytes.length ≤ 4088
  | _ => True

/-- The call does not run out of heap. -/
def HeapOk (s : AbyssState) : AbyssCall → Prop
  | create _ => kalloc s.heap sizeofVfsFile ≠ none
  | _ => True

end AbyssCall

/-- The entries `abyssfs_read_dir` shows of the root, without `"."` and `".."`. -/
def rootEntries (fs : AbyssFs) : List Dirent :=
  ((abyssfsReadDir fs [slash] blockSize).getD []).drop 2

/-- Calls that do not fill the root block beyond 4088 bytes. -/
def abyssLts : Lts AbyssState AbyssCall where
  step s a t := a.Fits (rootEntries s.fs) ∧ t = a.apply s

/-- The same with the abstract list beside the state, as long as `kalloc` succeeds. -/
def entriesLts : Lts (AbyssState × List Dirent) AbyssCall where
  step s a t := a.Fits s.2 ∧ a.HeapOk s.1 ∧ t = (a.apply s.1, a.entries s.1 s.2)

/-- After `abyssfs_init`, the heap being `heap` and the block array holding `m`. -/
def AbyssState.init (heap : Heap) (m : ByteMem) : AbyssState :=
  { heap := heap, fs := abyssfsInit m, handles := [] }

theorem AbyssCall.apply_mkdir (s : AbyssState) (n : EntryName) :
    ((AbyssCall.mkdir n).apply s).fs = (abyssfsMkdir s.fs [slash] n.bytes).2 := rfl

theorem AbyssCall.apply_create (s : AbyssState) (n : EntryName) :
    ((AbyssCall.create n).apply s).fs = (abyssfsCreate s.heap s.fs [slash] n.bytes).2.2 := rfl

theorem AbyssCall.entries_create {s : AbyssState} {n : EntryName} {file : VfsFile}
    (h : (abyssfsCreate s.heap s.fs [slash] n.bytes).1 = some file) (l : List Dirent) :
    (AbyssCall.create n).entries s l = l ++ [{ inode := file.privateData, name := n.bytes }] := by
  simp only [AbyssCall.entries, h]

/-! ## One call -/

/-- Handles refer to inodes other than the root's. -/
def HandlesOk (s : AbyssState) : Prop := ∀ file ∈ s.handles, file.privateData ≠ 1

theorem HandlesOk.append {s : AbyssState} (h : HandlesOk s) {heap : Heap} {fs : AbyssFs}
    {file : Option VfsFile} (hfile : ∀ f ∈ file, f.privateData ≠ 1) :
    HandlesOk { heap := heap, fs := fs, handles := s.handles ++ file.toList } := by
  intro f hf
  rcases List.mem_append.1 hf with hf | hf
  · exact h f hf
  · exact hfile f (Option.mem_toList.1 hf)

/-- The length of the records is the length the listing tells. -/
theorem RootDir.span_eq {m : ByteMem} {rs : List DirRecord} (h : RootDir m rs) :
    dirFormat.span rs =
      ((rs.map DirRecord.toDirent).map fun e => recSize e.name.length).sum := by
  rw [RecordFormat.span, List.map_map]
  refine congrArg List.sum (List.map_congr_left fun r hr => ?_)
  exact (h.exact r hr).2

theorem RootDir.rootEntries_eq {fs : AbyssFs} {rs : List DirRecord} (h : RootDir fs.blocks rs) :
    rootEntries fs = rs.map DirRecord.toDirent := by
  have hlen := dirFormat.length_le_span rs
  have hfits := h.fits
  rw [rootEntries, h.readDir, List.take_of_length_le (by simp [blockSize]; omega)]
  rfl

theorem RootInv.rootEntries_eq {fs : AbyssFs} {rs : List DirRecord} (h : RootInv fs rs) :
    rootEntries fs = rs.map DirRecord.toDirent := h.dir.rootEntries_eq

/-- Whether an entry of the name exists shows in the list, and the list is cut there. -/
theorem cut_at_name (rs : List DirRecord) (name : Str) :
    (∀ r ∈ rs, r.name ≠ name) ∨ ∃ us r ts, rs = us ++ r :: ts ∧ r.name = name ∧
      ∀ q ∈ us, q.name ≠ name := by
  induction rs with
  | nil => exact Or.inl (by simp)
  | cons r rs ih =>
    by_cases hr : r.name = name
    · exact Or.inr ⟨[], r, rs, rfl, hr, by simp⟩
    · rcases ih with h | ⟨us, q, ts, rfl, hq, hne⟩
      · exact Or.inl (List.forall_mem_cons.2 ⟨hr, h⟩)
      · exact Or.inr ⟨r :: us, q, ts, rfl, hq, List.forall_mem_cons.2 ⟨hr, hne⟩⟩

/-- **One call.**  The invariant holds again, for some entries; when `kalloc` did
not fail, for those the call's answer tells. -/
theorem RootInv.call {s : AbyssState} {rs : List DirRecord} (h : RootInv s.fs rs)
    (hh : HandlesOk s) {a : AbyssCall} (hfits : a.Fits (rs.map DirRecord.toDirent)) :
    ∃ rs', RootInv (a.apply s).fs rs' ∧ HandlesOk (a.apply s) ∧
      (a.HeapOk s → rs'.map DirRecord.toDirent = a.entries s (rs.map DirRecord.toDirent)) := by
  have hspan := h.dir.span_eq
  have hneg : (-1 : Int) ≠ 0 := by decide
  cases a with
  | create n =>
    have hroom : 20 + dirFormat.span rs + recSize n.bytes.length ≤ 4088 := by
      rw [hspan]
      exact hfits
    rcases h.create s.heap n hroom with ⟨-, hnone⟩ | ⟨i, hi, -, hfile, h2, hinv⟩
    · refine ⟨rs, ?_, ?_, ?_⟩
      · simp only [AbyssCall.apply, hnone]
        exact h
      · simp only [AbyssCall.apply, hnone]
        exact hh.append (by simp)
      · intro _
        simp only [AbyssCall.entries, hnone]
    · have hfiles : ∀ f ∈ (abyssfsCreate s.heap s.fs [slash] n.bytes).1, f.privateData ≠ 1 := by
        rw [hfile]
        intro f hf
        obtain ⟨x, -, rfl⟩ := Option.mem_map.1 hf
        have hi1 : i ≠ 1 := by omega
        exact hi1
      refine ⟨rs ++ [n.record i hi], hinv, hh.append hfiles, ?_⟩
      intro hheap
      obtain ⟨p, hp⟩ := Option.ne_none_iff_exists'.1 hheap
      rw [hp, Option.map_some] at hfile
      rw [AbyssCall.entries_create hfile, List.map_append]
      rfl
  | mkdir n =>
    have hroom : 20 + dirFormat.span rs + recSize n.bytes.length ≤ 4088 := by
      rw [hspan]
      exact hfits
    rcases h.mkdir n hroom with ⟨hret, hinv⟩ | ⟨i, hi, halloc, h2, hret, hinv⟩
    · refine ⟨rs, hinv, hh, ?_⟩
      intro _
      rw [AbyssCall.entries, hret, if_neg hneg]
    · refine ⟨rs ++ [n.record i hi], hinv, hh, ?_⟩
      intro _
      rw [AbyssCall.entries, hret, if_pos rfl, halloc, List.map_append]
      rfl
  | unlink n =>
    rcases cut_at_name rs n.bytes with hne | ⟨us, r, ts, rfl, hr, hne⟩
    · have hcall := h.unlink_none n hne
      refine ⟨rs, ?_, hh, ?_⟩
      · simp only [AbyssCall.apply, hcall]
        exact h
      · intro _
        rw [AbyssCall.entries, hcall, if_neg hneg]
    · obtain ⟨hret, hinv⟩ := h.unlink_some n hr hne
      refine ⟨us ++ ts, hinv, hh, ?_⟩
      intro _
      have herase : ∀ e ∈ us.map DirRecord.toDirent, ¬ (decide (e.name = n.bytes)) = true := by
        intro e he
        obtain ⟨q, hq, rfl⟩ := List.mem_map.1 he
        rw [decide_eq_true_eq]
        exact hne q hq
      have hhead : (fun e : Dirent => decide (e.name = n.bytes)) r.toDirent = true :=
        decide_eq_true hr
      rw [AbyssCall.entries, hret, if_pos rfl, List.map_append, List.map_append, List.map_cons,
        List.eraseP_append_right _ herase,
          List.eraseP_cons_of_pos (p := fun e : Dirent => decide (e.name = n.bytes)) hhead]
  | openPath path =>
    refine ⟨rs, h, hh.append ?_, fun _ => rfl⟩
    intro f hf
    unfold abyssfsOpen at hf
    split at hf
    · cases hf
    · rw [Option.mem_some_iff] at hf
      rw [← hf]
      exact Nat.zero_ne_one
  | write k buf =>
    cases hk : s.handles[k]? with
    | none =>
      simp only [AbyssCall.apply, hk]
      exact ⟨rs, h, hh, fun _ => rfl⟩
    | some file =>
      simp only [AbyssCall.apply, hk]
      exact ⟨rs, h.write (hh file (List.mem_of_getElem? hk)) buf, hh, fun _ => rfl⟩

/-! ## Whole runs -/

theorem handlesOk_init (heap : Heap) (m : ByteMem) : HandlesOk (AbyssState.init heap m) := by
  intro file hfile
  cases hfile

/-- The abstract list is the list of the root's entries, along every run. -/
theorem entries_invariant {heap : Heap} {m : ByteMem} {t : AbyssState × List Dirent}
    (h : entriesLts.Reachable (AbyssState.init heap m, []) t) :
    ∃ rs, RootInv t.1.fs rs ∧ HandlesOk t.1 ∧ rs.map DirRecord.toDirent = t.2 := by
  refine h.invariant (P := fun t : AbyssState × List Dirent => ∃ rs, RootInv t.1.fs rs ∧
    HandlesOk t.1 ∧ rs.map DirRecord.toDirent = t.2) (fun t a u ht hstep => ?_)
    ⟨[], rootInv_init m, handlesOk_init heap m, rfl⟩
  obtain ⟨rs, hinv, hh, hlist⟩ := ht
  obtain ⟨hfits, hheap, rfl⟩ := hstep
  rw [← hlist] at hfits
  obtain ⟨rs', hinv', hh', hlist'⟩ := hinv.call hh hfits
  refine ⟨rs', hinv', hh', ?_⟩
  rw [hlist' hheap, hlist]

/-- The root block stays well formed along every run, whatever `kalloc` answers. -/
theorem rootInv_invariant {heap : Heap} {m : ByteMem} {t : AbyssState}
    (h : abyssLts.Reachable (AbyssState.init heap m) t) :
    ∃ rs, RootInv t.fs rs ∧ HandlesOk t := by
  refine h.invariant (P := fun t => ∃ rs, RootInv t.fs rs ∧ HandlesOk t)
    (fun t a u ht hstep => ?_) ⟨[], rootInv_init m, handlesOk_init heap m⟩
  obtain ⟨rs, hinv, hh⟩ := ht
  obtain ⟨hfits, rfl⟩ := hstep
  rw [hinv.rootEntries_eq] at hfits
  obtain ⟨rs', hinv', hh', -⟩ := hinv.call hh hfits
  exact ⟨rs', hinv', hh'⟩

/-- **Refinement.**  After every run, a listing of the root with room for `c`
entries shows the first `c` of `"."`, `".."` and the abstract list; `unlink`
succeeds exactly on the names in the list and otherwise changes nothing; and the
inode numbers in the list are distinct, not the root's, and in use. -/
theorem abyssfs_refines_entries (heap : Heap) (m : ByteMem) {t : AbyssState × List Dirent}
    (h : entriesLts.Reachable (AbyssState.init heap m, []) t) :
    (∀ c, abyssfsReadDir t.1.fs [slash] c =
      some ((({ inode := 1, name := str ['.'] } : Dirent) ::
        { inode := 1, name := str ['.', '.'] } :: t.2).take c)) ∧
    (∀ n : EntryName, ((abyssfsUnlink t.1.fs n.bytes).1 = 0 ↔ ∃ e ∈ t.2, e.name = n.bytes) ∧
      ((abyssfsUnlink t.1.fs n.bytes).1 ≠ 0 → abyssfsUnlink t.1.fs n.bytes = (-1, t.1.fs))) ∧
    (t.2.map Dirent.inode).Nodup ∧
    ∀ e ∈ t.2, 2 ≤ e.inode ∧ e.inode < maxInodes ∧ (t.1.fs.inodes e.inode).mode ≠ 0 := by
  obtain ⟨rs, hinv, -, hlist⟩ := entries_invariant h
  rw [← hlist]
  refine ⟨fun c => hinv.readDir c, ?_, ?_, ?_⟩
  · intro n
    rcases cut_at_name rs n.bytes with hne | ⟨us, r, ts, rfl, hr, hne⟩
    · have hcall := hinv.unlink_none n hne
      rw [hcall]
      have hneg : (-1 : Int) ≠ 0 := by decide
      refine ⟨⟨fun h0 => absurd h0 hneg, ?_⟩, fun _ => rfl⟩
      rintro ⟨e, he, hname⟩
      obtain ⟨r, hr, rfl⟩ := List.mem_map.1 he
      exact absurd hname (hne r hr)
    · obtain ⟨hret, -⟩ := hinv.unlink_some n hr hne
      rw [hret]
      exact ⟨⟨fun _ => ⟨r.toDirent, by simp, hr⟩, fun _ => rfl⟩, fun h0 => absurd rfl h0⟩
  · rw [List.map_map]
    exact hinv.nodup
  · intro e he
    obtain ⟨r, hr, rfl⟩ := List.mem_map.1 he
    exact hinv.live r hr

/-- The name `a`. -/
def nameA : EntryName where
  bytes := str ['a']
  nonempty := by decide
  length_le := by decide
  no_slash := by decide
  nul_free := by unfold NulFree; decide
  ne_dot := by decide
  ne_dotdot := by decide

/-- `abyssfs_init` clears the block array. -/
theorem abyssfsInit_clean {x : Nat} (hx : rootAddr + 20 ≤ x) (hlt : x < blockSize * totalBlocks) :
    (abyssfsInit fun _ => 0).blocks x = 0 := by
  have haddr : rootBlock * blockSize = rootAddr := rfl
  simp only [abyssfsInit, haddr]
  rw [putDots_outside (Or.inr hx), memset_eq, ByteMem.blit_inside (Nat.zero_le _) (by omega)]

/-- The file system after an `abyssfs_create`. -/
def createIn (fs : AbyssFs) (cwd path : Str) : AbyssFs :=
  (abyssfsCreate (Heap.mk 0) fs cwd path).2.2

theorem createIn_eq (fs : AbyssFs) (cwd path : Str) :
    createIn fs cwd path = (abyssfsCreate (Heap.mk 0) fs cwd path).2.2 := rfl

/-- The first file of a fresh file system gets inode 2. -/
theorem abyssfsCreate_init :
    (abyssfsCreate (Heap.mk 0) (abyssfsInit fun _ => 0) [slash] nameA.bytes).1 =
      some { fOps := .abyssfs, privateData := 2, fPos := 0 } := by
  have hroom : 20 + dirFormat.span [] + recSize nameA.bytes.length ≤ 4088 := by decide
  have halloc := allocInode_init
  rcases (rootInv_init fun _ => 0).create (Heap.mk 0) nameA hroom with
    ⟨hzero, -⟩ | ⟨i, -, hi, hfile, -⟩
  · rw [halloc] at hzero
    exact absurd hzero (by decide)
  · rw [hfile, ← hi, halloc]
    rfl

/-- Its entry is the only one. -/
theorem rootInv_create_init : ∃ hi : 2 < maxInodes,
    RootInv (abyssfsCreate (Heap.mk 0) (abyssfsInit fun _ => 0) [slash] nameA.bytes).2.2
      [nameA.record 2 hi] := by
  have hroom : 20 + dirFormat.span [] + recSize nameA.bytes.length ≤ 4088 := by decide
  rcases (rootInv_init fun _ => 0).create (Heap.mk 0) nameA hroom with
    ⟨hzero, -⟩ | ⟨i, hi, halloc, -, -, hinv⟩
  · rw [allocInode_init] at hzero
    exact absurd hzero (by decide)
  · rw [allocInode_init] at halloc
    subst halloc
    exact ⟨hi, hinv⟩

/-- After creating `a` in a fresh file system, the listing shows it with inode 2. -/
theorem abyssfs_refines_entries_create :
    abyssfsReadDir (abyssfsCreate (Heap.mk 0) (abyssfsInit fun _ => 0) [slash]
      nameA.bytes).2.2 [slash] 3 = some [{ inode := 1, name := str ['.'] },
        { inode := 1, name := str ['.', '.'] }, { inode := 2, name := nameA.bytes }] := by
  have hroom : 20 + dirFormat.span [] + recSize nameA.bytes.length ≤ 4088 := by decide
  have hanswer := abyssfsCreate_init
  obtain ⟨s, hs⟩ : ∃ s, s = AbyssState.init (Heap.mk 0) fun _ => 0 := ⟨_, rfl⟩
  have hheap : s.heap = Heap.mk 0 := by rw [hs]; rfl
  have hfs : s.fs = abyssfsInit fun _ => 0 := by rw [hs]; rfl
  rw [← hheap, ← hfs] at hanswer ⊢
  have hstep : entriesLts.step (s, []) (AbyssCall.create nameA)
      ((AbyssCall.create nameA).apply s, (AbyssCall.create nameA).entries s []) :=
    ⟨hroom, by rw [AbyssCall.HeapOk, hheap]; decide, rfl⟩
  have hlist := (abyssfs_refines_entries (Heap.mk 0) (fun _ => 0)
    (by rw [← hs]; exact (Lts.Reachable.refl _).tail hstep)).1 3
  rw [AbyssCall.entries_create hanswer, AbyssCall.apply_create] at hlist
  rw [hlist]
  rfl

/-- **Exclusive ownership.**  In every reachable state the blocks of live inodes
are pairwise different data blocks with their bits set, the root block is inode
1's alone, and the reserved bits are set; so `alloc_block` never hands out a
block that a live inode owns. -/
theorem abyssfs_blocks_exclusive (heap : Heap) (m : ByteMem) {t : AbyssState}
    (h : abyssLts.Reachable (AbyssState.init heap m) t) :
    (∀ i k, i ≠ k → Live t.fs i → Live t.fs k → (t.fs.inodes i).blocks ≠ 0 →
      (t.fs.inodes k).blocks ≠ 0 → (t.fs.inodes i).blocks ≠ (t.fs.inodes k).blocks) ∧
    (∀ i, Live t.fs i → (t.fs.inodes i).blocks ≠ 0 →
      9 ≤ (t.fs.inodes i).blocks ∧ (t.fs.inodes i).blocks < 64 ∧
        t.fs.blockBitmap.getLsbD (t.fs.inodes i).blocks = true) ∧
    (∀ i, (t.fs.inodes i).blocks = 9 ↔ i = 1) ∧
    (∀ i ≤ 9, t.fs.blockBitmap.getLsbD i = true) ∧
    ∀ i, Live t.fs i → (allocBlock t.fs).1 ≠ 0 → (t.fs.inodes i).blocks ≠ (allocBlock t.fs).1 := by
  obtain ⟨rs, hinv, -⟩ := rootInv_invariant h
  have hown := hinv.own
  have hrange : ∀ i, (t.fs.inodes i).blocks ≠ 0 →
      9 ≤ (t.fs.inodes i).blocks ∧ (t.fs.inodes i).blocks < 64 := by
    intro i hne
    by_cases hi : i = 1
    · rw [hi, hown.root.2]
      decide
    · have := hown.range i hi
      simp only [rootBlock, inodeBlocks, totalBlocks] at this
      omega
  refine ⟨fun i k hik hi hk hne _ => hown.exclusive i k hik hi hk hne, ?_,
    fun i => ⟨?_, ?_⟩, hown.reserved, fun i hi hb => (hown.allocBlock_fresh hb).2.2 i hi⟩
  · intro i hi hne
    exact ⟨(hrange i hne).1, (hrange i hne).2, hown.owned i hi hne⟩
  · intro h9
    by_contra hi
    exact hown.blocks_ne_root hi h9
  · rintro rfl
    exact hown.root.2

/-- After the directory `a` is made, inode 2 does not have the root block. -/
theorem abyssfs_blocks_exclusive_mkdir :
    ((abyssfsMkdir (abyssfsInit fun _ => 0) [slash] nameA.bytes).2.inodes 2).blocks ≠ 9 := by
  obtain ⟨s, hs⟩ : ∃ s, s = AbyssState.init (Heap.mk 0) fun _ => 0 := ⟨_, rfl⟩
  have hfs : s.fs = abyssfsInit fun _ => 0 := by rw [hs]; rfl
  have hfits : (AbyssCall.mkdir nameA).Fits (rootEntries s.fs) := by
    rw [hfs, (rootInv_init fun _ => 0).rootEntries_eq]
    unfold AbyssCall.Fits
    decide
  have hstep : abyssLts.step s (AbyssCall.mkdir nameA) ((AbyssCall.mkdir nameA).apply s) :=
    ⟨hfits, rfl⟩
  have hroot := (abyssfs_blocks_exclusive (Heap.mk 0) (fun _ => 0)
    (by rw [← hs]; exact (Lts.Reachable.refl _).tail hstep)).2.2.1 2
  rw [AbyssCall.apply_mkdir, hfs] at hroot
  rw [Ne, hroot]
  decide

end OsArm
