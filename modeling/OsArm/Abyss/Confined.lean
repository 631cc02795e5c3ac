import OsArm.Abyss.Survival
import OsArm.Abyss.Terminated

/-!
# Directory accesses stay inside the block

Runs of `abyssfs_create`, `abyssfs_mkdir` and `abyssfs_unlink` with names of 1 to 245 bytes.

* `DirCall.Safe` — the calls that leave every directory block terminated.
* `directories_stay_inside` — in every run of such calls all accesses are inside the block; a call
  without room is not such a call unless there is no inode for it.
* `create_overruns_block` — sixteen names of 245 bytes fit, and the seventeenth is written all the
  same.
-/

namespace OsArm

/-! ## The calls -/

/-- A name of 1 to 245 bytes. -/
structure ShortName extends PathArg where
  ne_nil : bytes ≠ []
  length_le : bytes.length ≤ 245

/-- A call for a process whose directory is `"/"`. -/
inductive DirCall
  | create (n : ShortName)
  | mkdir (n : ShortName)
  | unlink (n : ShortName)

namespace DirCall

/-- The same call with any path. -/
def toRootCall : DirCall → RootCall
  | create n => .create n.toPathArg
  | mkdir n => .mkdir n.toPathArg
  | unlink n => .unlink n.toPathArg

/-- What `create_file` is given for its name. -/
def name : DirCall → Str
  | create n => n.strip
  | mkdir n => basename n.strip
  | unlink n => n.strip

/-- The call gets as far as `create_file`. -/
def Enters (fs : AbyssFs) : DirCall → Prop
  | create _ => (allocInode fs).1 ≠ 0
  | mkdir _ => (allocInode fs).1 ≠ 0 ∧ (allocBlock (allocInode fs).2).1 ≠ 0
  | unlink _ => False

instance (fs : AbyssFs) (call : DirCall) : Decidable (call.Enters fs) :=
  match call with
  | create _ => inferInstanceAs (Decidable (_ ≠ _))
  | mkdir _ => inferInstanceAs (Decidable (_ ∧ _))
  | unlink _ => inferInstanceAs (Decidable False)

/-- The state that `create_file` finds, or would find. -/
def before (fs : AbyssFs) : DirCall → AbyssFs
  | create _ => (allocInode fs).2
  | mkdir n => if (mkdir n).Enters fs then mkdirState fs else (allocInode fs).2
  | unlink _ => fs

/-- What the call reads and writes in `create_file` or in `abyssfs_unlink`. -/
def accesses (fs : AbyssFs) : DirCall → List Access
  | create n =>
    if (create n).Enters fs then createFileAccesses (allocInode fs).2 [slash]
      (create n).name else []
  | mkdir n =>
    if (mkdir n).Enters fs then createFileAccesses (mkdirState fs) [slash] (mkdir n).name else []
  | unlink n => unlinkAccesses fs n.bytes

/-- The call creates. -/
def Creates : DirCall → Prop
  | create _ | mkdir _ => True
  | unlink _ => False

/-- The call creates, and the new entry would end behind the end of the block. -/
def NoRoom (fs : AbyssFs) (call : DirCall) : Prop :=
  call.Creates ∧ blockSize < usedBytes (call.before fs).blocks (dirAddr (call.before fs)) +
    recSize (basename call.name).length

/-- The call answers `NULL` or -1. -/
def Fails (s : RootState) : DirCall → Prop
  | create n => (abyssfsCreate s.heap s.fs [slash] n.bytes).1 = none
  | mkdir n => (abyssfsMkdir s.fs [slash] n.bytes).1 = -1
  | unlink n => (abyssfsUnlink s.fs n.bytes).1 = -1

/-- **The condition.** -/
structure Safe (fs : AbyssFs) (call : DirCall) : Prop where
  /-- Without room there is no inode either. -/
  room : call.NoRoom fs → (allocInode fs).1 = 0
  stops : call.Enters fs → LeavesStop (call.before fs) (basename call.name).length
  /-- The block of a new directory is read on behind its long `".."`; that length is 0. -/
  clean : ∀ n, call = mkdir n → call.Enters fs →
    recLen fs.blocks ((allocBlock (allocInode fs).2).1 * blockSize + 256) = 0

end DirCall

/-- The calls, in any order. -/
def dirLts : Lts RootState DirCall where
  step s call t := call.toRootCall.Step s t

/-- **One call stays inside**; without room it fails and changes neither a block nor the inode
table. -/
structure StaysInside (s : RootState) (call : DirCall) (t : RootState) : Prop where
  accesses : ∀ c ∈ call.accesses s.fs, c.Inside
  no_room : call.NoRoom s.fs →
    call.Fails s ∧ t.fs.blocks = s.fs.blocks ∧ t.fs.inodes = s.fs.inodes

/-- All lookups stay inside the directories that they go through. -/
structure LookupsInside (fs : AbyssFs) : Prop where
  get_inode_by_path : ∀ path, ∀ c ∈ pathAccesses fs path, c.Inside
  read_dir : ∀ path count, ∀ c ∈ readDirAccesses fs path count, c.Inside
  unlink : ∀ path, ∀ c ∈ unlinkAccesses fs path, c.Inside

theorem Sound.lookupsInside {fs : AbyssFs} (h : Sound fs) : LookupsInside fs where
  get_inode_by_path := h.pathAccesses_inside
  read_dir := h.readDirAccesses_inside
  unlink path := (h.unlink path).2

section Calls

variable {s t : RootState} {call : DirCall}

theorem basename_length (path : Str) : (basename path).length ≤ path.length := by
  rcases (basename_spec path).2 with heq | ⟨dir, heq⟩
  · rw [← heq]
  · conv_rhs => rw [heq]
    rw [List.length_append, List.length_cons]
    omega

/-- The name of the entry. -/
theorem DirCall.name_spec (call : DirCall) :
    NulFree (basename call.name) ∧ (basename call.name).length ≤ 245 := by
  have hstrip : ∀ n : ShortName, NulFree (basename n.strip) ∧ (basename n.strip).length ≤ 245 := by
    intro n
    have hle := n.length_le
    have hsub : n.strip.length ≤ n.bytes.length := (List.dropWhile_sublist _).length_le
    have := basename_length n.strip
    exact ⟨n.basename_nulFree, by omega⟩
  cases call with
  | create n => exact hstrip n
  | mkdir n =>
    rw [DirCall.name, basename_basename]
    exact hstrip n
  | unlink n => exact hstrip n

/-- The file system after a creation that gets as far as `create_file`. -/
theorem fs_of_enters (h : dirLts.step s call t) (henters : call.Enters s.fs) :
    t.fs = (createFile (call.before s.fs) [slash] call.name (allocInode s.fs).1).2 := by
  cases call with
  | create n =>
    rw [show t = _ from h]
    exact abyssfsCreate_eq s.heap henters (createFile_slash_fst _ _ _)
  | mkdir n =>
    have hcall : abyssfsMkdir s.fs [slash] n.bytes =
        (0, (createFile (mkdirState s.fs) [slash] (basename n.strip) (allocInode s.fs).1).2) :=
      abyssfsMkdir_eq henters.1 henters.2 rfl (createFile_slash_fst _ _ _)
    rw [show t = _ from h, DirCall.before, if_pos henters]
    dsimp only [ShortName.toPathArg] at hcall ⊢
    rw [hcall]
    rfl
  | unlink n => exact henters.elim

/-- Without a free inode a creation fails and changes nothing. -/
theorem fails_of_no_inode (h : dirLts.step s call t) (hcall : call.Creates)
    (hzero : (allocInode s.fs).1 = 0) : call.Fails s ∧ t.fs = s.fs := by
  cases call with
  | create n =>
    have hnone : abyssfsCreate s.heap s.fs [slash] n.bytes = (none, s.heap, s.fs) :=
      abyssfsCreate_of_zero hzero
    rw [show t = _ from h]
    exact ⟨congrArg Prod.fst hnone, congrArg (fun r => r.2.2) hnone⟩
  | mkdir n =>
    have hnone : abyssfsMkdir s.fs [slash] n.bytes = (-1, s.fs) := abyssfsMkdir_of_zero hzero
    rw [show t = _ from h]
    exact ⟨congrArg Prod.fst hnone, congrArg Prod.snd hnone⟩
  | unlink n => exact hcall.elim

/-- Without a free block `abyssfs_mkdir` keeps the inode that it took. -/
theorem fs_of_no_block {n : ShortName} (h : dirLts.step s (.mkdir n) t)
    (hne : (allocInode s.fs).1 ≠ 0) (hb : (allocBlock (allocInode s.fs).2).1 = 0) :
    t.fs = (allocInode s.fs).2 := by
  have hcall : abyssfsMkdir s.fs [slash] n.bytes = (-1, (allocInode s.fs).2) := by
    have hblock := allocBlock_eq_of_zero hb
    simp only [abyssfsMkdir, if_neg hne, hblock, if_true]
  rw [show t = _ from h]
  exact congrArg Prod.snd hcall

/-- A creation that has an inode keeps it. -/
theorem inodes_ne_of_step (h : dirLts.step s call t) (hcall : call.Creates)
    (hne : (allocInode s.fs).1 ≠ 0) : t.fs.inodes ≠ s.fs.inodes := by
  have hfree := mode_of_allocInode hne
  have htaken : (t.fs.inodes (allocInode s.fs).1).mode ≠ 0 := by
    cases call with
    | create n =>
      rw [show t = _ from h]
      exact mode_of_abyssfsCreate hne
    | mkdir n =>
      rw [show t = _ from h]
      exact mode_of_abyssfsMkdir hne
    | unlink n => exact hcall.elim
  intro heq
  rw [heq] at htaken
  exact htaken hfree

/-- `create_file` finds a sound file system. -/
theorem Sound.before (h : Sound s.fs) (hsafe : call.Safe s.fs) : Sound (call.before s.fs) := by
  cases call with
  | create n => exact h.allocInode
  | mkdir n =>
    rw [DirCall.before]
    split
    · next henters => exact h.mkdirState henters.2 (hsafe.clean n rfl henters)
    · exact h.allocInode
  | unlink n => exact h

/-- A creation that does not get as far as `create_file` reads and writes no directory. -/
theorem DirCall.accesses_eq_nil {fs : AbyssFs} (hcall : call.Creates) (h : ¬ call.Enters fs) :
    call.accesses fs = [] := by
  cases call with
  | create n => rw [DirCall.accesses, if_neg h]
  | mkdir n => rw [DirCall.accesses, if_neg h]
  | unlink n => exact hcall.elim

/-- **One step.** -/
theorem Sound.step (h : Sound s.fs) (hstep : dirLts.step s call t) (hsafe : call.Safe s.fs) :
    StaysInside s call t ∧ Sound t.fs := by
  have hroom : call.NoRoom s.fs →
      call.Fails s ∧ t.fs.blocks = s.fs.blocks ∧ t.fs.inodes = s.fs.inodes := by
    intro hno
    obtain ⟨hfails, hsame⟩ := fails_of_no_inode hstep hno.1 (hsafe.room hno)
    rw [hsame]
    exact ⟨hfails, rfl, rfl⟩
  by_cases henters : call.Enters s.fs
  · obtain ⟨hn, hl⟩ := call.name_spec
    obtain ⟨hsound, hinside⟩ := (h.before hsafe).createFile (i := (OsArm.allocInode s.fs).1) hn hl
      (allocInode_lt s.fs) (hsafe.stops henters)
    rw [fs_of_enters hstep henters]
    refine ⟨⟨?_, hroom⟩, hsound⟩
    cases call with
    | create n =>
      rw [DirCall.accesses, if_pos henters]
      exact hinside
    | mkdir n =>
      rw [DirCall.before, if_pos henters] at hinside
      rw [DirCall.accesses, if_pos henters]
      exact hinside
    | unlink n => exact henters.elim
  · cases call with
    | create n =>
      have hzero : (OsArm.allocInode s.fs).1 = 0 := not_not.1 henters
      rw [(fails_of_no_inode hstep trivial hzero).2]
      have hnil : (DirCall.create n).accesses s.fs = [] := DirCall.accesses_eq_nil trivial henters
      refine ⟨⟨?_, hroom⟩, h⟩
      rw [hnil]
      exact fun c hc => absurd hc List.not_mem_nil
    | mkdir n =>
      have hnil : (DirCall.mkdir n).accesses s.fs = [] := DirCall.accesses_eq_nil trivial henters
      refine ⟨⟨?_, hroom⟩, ?_⟩
      · rw [hnil]
        exact fun c hc => absurd hc List.not_mem_nil
      · by_cases hzero : (OsArm.allocInode s.fs).1 = 0
        · rw [(fails_of_no_inode hstep trivial hzero).2]
          exact h
        · rw [fs_of_no_block hstep hzero (by_contra fun hb => henters ⟨hzero, hb⟩)]
          exact h.allocInode
    | unlink n =>
      obtain ⟨hsound, hinside⟩ := h.unlink n.bytes
      refine ⟨⟨hinside, hroom⟩, ?_⟩
      rw [show t = _ from hstep]
      exact hsound

/-- **Directory accesses stay inside**, in every run of calls that are safe.  A call without room,
made from there on, stays inside and fails without changing anything if and only if there is no
inode for it. -/
theorem directories_stay_inside {heap : Heap} {m : ByteMem} {tr : List DirCall} {s : RootState}
    (hrun : (dirLts.only fun s call _ => call.Safe s.fs).Run (RootState.init heap m) tr s) :
    (dirLts.only StaysInside).Run (RootState.init heap m) tr s ∧ LookupsInside s.fs ∧
      ∀ call t, dirLts.step s call t → call.NoRoom s.fs →
        (StaysInside s call t ↔ (allocInode s.fs).1 = 0) := by
  obtain ⟨hrun', hs⟩ := hrun.only (I := fun s => Sound s.fs)
    (fun t call u ht hstep hsafe => ht.step hstep hsafe) (Sound.init m)
  refine ⟨hrun', hs.lookupsInside, fun call t hstep hno => ⟨?_, ?_⟩⟩
  · intro hstays
    by_contra hne
    exact inodes_ne_of_step hstep hno.1 hne (hstays.no_room hno).2.2
  · intro hzero
    obtain ⟨hfails, hsame⟩ := fails_of_no_inode hstep hno.1 hzero
    have henters : ¬ call.Enters s.fs := by
      cases call with
      | create n => exact fun henters => henters hzero
      | mkdir n => exact fun henters => henters.1 hzero
      | unlink n => exact hno.1.elim
    refine ⟨?_, fun _ => by rw [hsame]; exact ⟨hfails, rfl, rfl⟩⟩
    rw [DirCall.accesses_eq_nil hno.1 henters]
    exact fun c hc => absurd hc List.not_mem_nil

end Calls

/-! ## Seventeen long names -/

/-- What is used of the root block, while the root is kept. -/
theorem RootKept.usedBytes_eq {fs : AbyssFs} {rs : List DirRecord} (h : RootKept fs rs) :
    dirAddr fs = rootAddr ∧ usedBytes fs.blocks (dirAddr fs) = 20 + dirFormat.span rs := by
  have hne : rootBlock ≠ 0 := by decide
  have haddr : dirAddr fs = rootAddr := by
    rw [dirAddr, h.own.root.2, if_neg hne]
    rfl
  have hcount := dirFormat.length_le_span rs
  have hfits := h.dir.fits
  have hdot : recSize dot.name.length = 8 := rfl
  have hdotdot : recSize (dotdot false).name.length = 12 := rfl
  refine ⟨haddr, ?_⟩
  rw [haddr, usedBytes, h.dir.readEntries_eq, List.take_of_length_le (by simp [blockSize]; omega),
    h.dir.span_eq]
  simp only [List.map_cons, List.sum_cons, DirRecord.toDirent, hdot, hdotdot]
  omega

/-- A name of 245 bytes. -/
def longName : ShortName where
  bytes := List.replicate 245 97
  nul_free := fun hmem => absurd (List.eq_of_mem_replicate hmem) (by decide)
  ne_nil := by simp
  length_le := Nat.le_of_eq List.length_replicate

theorem longName_entry : basename longName.strip = List.replicate 245 97 := by
  have hslash : slash ∉ List.replicate 245 (97 : UInt8) :=
    fun hmem => absurd (List.eq_of_mem_replicate hmem) (by decide)
  have hstrip : longName.strip = List.replicate 245 97 := dropWhile_of_notMem hslash
  rw [hstrip, basename_of_notMem hslash]

theorem create_step (s : RootState) (n : ShortName) : dirLts.step s (.create n)
    { heap := (abyssfsCreate s.heap s.fs [slash] n.bytes).2.1
      fs := (abyssfsCreate s.heap s.fs [slash] n.bytes).2.2 } := rfl

/-- While there is room, `longName` can be created again and again. -/
theorem longNames_run {n : Nat} (hn : n ≤ 16) :
    ∃ tr s rs, dirLts.Run (RootState.init (Heap.mk 0) fun _ => 0) tr s ∧ RootKept s.fs rs ∧
      dirFormat.span rs = 252 * n ∧ ∀ k, n + 2 ≤ k → (s.fs.inodes k).mode = 0 := by
  induction n with
  | zero =>
    refine ⟨[], _, [], .nil, (rootInv_init _).kept, rfl, ?_⟩
    intro k hk
    have hnode : (abyssfsInit fun _ => 0).inodes k = Inode.zero := if_neg (by omega)
    exact congrArg Inode.mode hnode
  | succ n ih =>
    obtain ⟨tr, s, rs, hrun, hkept, hspan, hfree⟩ := ih (by omega)
    have hlen : (List.replicate 245 (97 : UInt8)).length = 245 := List.length_replicate
    have hsize : recSize (245 % 256) = 252 := rfl
    have hfirst := allocInode_le (Nat.le_add_left 1 (n + 1)) (hfree _ (Nat.le_refl _))
    rcases hkept.create s.heap longName.bytes longName_entry
      (by rw [← longName_entry]; exact longName.basename_nulFree) (by rw [hlen]; decide)
      (by rw [hlen, hspan, hsize]; omega) with ⟨hzero, -⟩ | ⟨i, hi32, hi, -, -, hlt,
        added, hkept', hadded⟩
    · have hmax : n + 2 < maxInodes := by
        simp only [maxInodes, inodeBlocks, blockSize]
        omega
      exact absurd hzero (allocInode_of_free (Nat.le_add_left 1 (n + 1)) hmax
        (hfree _ (Nat.le_refl _)))
    · have hrecord := hadded (by rw [hlen])
      refine ⟨_, _, _, hrun.snoc (create_step s longName), hkept', ?_, ?_⟩
      · rw [hrecord, RecordFormat.span_append, hspan, RecordFormat.span_cons, RecordFormat.span_nil,
          dirFormat_len]
        simp only [entryRecord, hlen]
        rw [show recSize 245 = 252 from rfl]
        omega
      · intro k hk
        simp only
        rw [abyssfsCreate_inodes, allocInode_of_ne (by omega)]
        exact hfree k (by omega)

/-- **The seventeenth name** has no room: the call takes an inode nevertheless, and writes behind
the end of the block. -/
theorem create_overruns_block :
    ∃ tr s t, dirLts.Run (RootState.init (Heap.mk 0) fun _ => 0) tr s ∧
      dirLts.step s (.create longName) t ∧ (DirCall.create longName).NoRoom s.fs ∧
      ¬ StaysInside s (.create longName) t := by
  obtain ⟨tr, s, rs, hrun, hkept, hspan, hfree⟩ := longNames_run (Nat.le_refl 16)
  have hne : (allocInode s.fs).1 ≠ 0 :=
    allocInode_of_free (i := 18) (by decide) (by decide) (hfree 18 (Nat.le_refl _))
  have hstep := create_step s longName
  have hno : (DirCall.create longName).NoRoom s.fs := by
    rcases hkept.allocInode with hnone | ⟨i, hi, -, -, -, -, hkept'⟩
    · rw [hnone] at hne
      exact absurd rfl hne
    · have hused := hkept'.usedBytes_eq.2
      have hsize : recSize (List.replicate 245 (97 : UInt8)).length = 252 := by
        rw [List.length_replicate]
        rfl
      have hname : basename (DirCall.create longName).name = List.replicate 245 97 := longName_entry
      refine ⟨trivial, ?_⟩
      rw [DirCall.before, hused, hspan, hname, hsize, blockSize]
      omega
  exact ⟨tr, s, _, hrun, hstep, hno, fun hstays =>
    inodes_ne_of_step hstep trivial hne (hstays.no_room hno).2.2⟩

/-- Creating `longName` in a fresh file system. -/
theorem directories_stay_inside_create :
    ∃ s, (dirLts.only StaysInside).Run (RootState.init (Heap.mk 0) fun _ => 0)
      [.create longName] s ∧
      LookupsInside s.fs ∧ ∀ call t, dirLts.step s call t → call.NoRoom s.fs →
        (StaysInside s call t ↔ (allocInode s.fs).1 = 0) := by
  have hinit : RootKept (abyssfsInit fun _ => 0) [] := (rootInv_init _).kept
  have hname : (basename (DirCall.create longName).name).length = 245 := by
    rw [show basename (DirCall.create longName).name = _ from longName_entry, List.length_replicate]
  have hsize : recSize 245 = 252 := rfl
  have hsafe : (DirCall.create longName).Safe (abyssfsInit fun _ => 0) := by
    rcases hinit.allocInode with hnone | ⟨i, hi, -, -, -, -, hkept⟩
    · have hzero : (allocInode (abyssfsInit fun _ => 0)).1 = 0 := by rw [hnone]
      exact ⟨fun _ => hzero, fun henters => absurd hzero henters, fun n hn => by cases hn⟩
    · obtain ⟨haddr, hused⟩ := hkept.usedBytes_eq
      rw [RecordFormat.span_nil] at hused
      have hdot : recLen (allocInode (abyssfsInit fun _ => 0)).2.blocks rootAddr = 8 := by
        obtain ⟨fresh, -, hchain, -⟩ := hkept.dir.chain
        exact hchain.1.2.2.1
      refine ⟨fun hno => ?_, fun _ => ⟨?_, fun hzero => ?_⟩, fun n hn => by cases hn⟩
      · have := hno.2
        rw [DirCall.before, hused, hname, hsize, blockSize] at this
        omega
      · rw [DirCall.before, hused, hname, hsize, blockSize]
        omega
      · rw [DirCall.before, haddr, hdot] at hzero
        omega
  have hrun : (dirLts.only fun s call _ => call.Safe s.fs).Run
    (RootState.init (Heap.mk 0) fun _ => 0)
      ([] ++ [.create longName]) _ := Lts.Run.nil.snoc ⟨create_step _ longName, hsafe⟩
  exact ⟨_, directories_stay_inside hrun⟩

end OsArm
