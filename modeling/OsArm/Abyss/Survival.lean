import OsArm.Abyss.Runs

/-!
# The root directory survives

`abyssfs_create`, `abyssfs_mkdir`, `abyssfs_unlink` and `abyssfs_remove_recursive` with
any path arguments.  `abyssfs_unlink` looks for a record of the root block by its name,
and `"."` and `".."` are records of the root block too.

* `RootSurvives` — inode 1 and block 9 are the root's, and stay out of the allocators.
* `RootCall.Spares` — the paths that do not name the root's own records, and the names
  whose record length fits the 8-bit arithmetic.
* `RootKept.step` — such a call keeps the invariant of the root.
* `root_survives` — the root survives every run of such calls; and a removal from there
  on leaves it alone if and only if it is such a call.
-/

namespace OsArm

/-! ## The calls -/

/-- A path argument: any C string. -/
structure PathArg where
  bytes : Str
  nul_free : NulFree bytes

/-- What the operations make of a path: its leading slashes are skipped. -/
def PathArg.strip (p : PathArg) : Str := p.bytes.dropWhile (· = slash)

/-- A call. -/
inductive RootCall
  | create (p : PathArg)
  | mkdir (p : PathArg)
  | unlink (p : PathArg)
  | removeRecursive (p : PathArg)

/-- The heap and the file system. -/
structure RootState where
  heap : Heap
  fs : AbyssFs

/-- After `abyssfs_init`. -/
def RootState.init (heap : Heap) (m : ByteMem) : RootState := { heap := heap, fs := abyssfsInit m }

namespace RootCall

/-- The call leads from `s` to `t`, for a process whose directory is `"/"`. -/
def Step (s t : RootState) : RootCall → Prop
  | create p =>
    t = { heap := (abyssfsCreate s.heap s.fs [slash] p.bytes).2.1
          fs := (abyssfsCreate s.heap s.fs [slash] p.bytes).2.2 }
  | mkdir p => t = { s with fs := (abyssfsMkdir s.fs [slash] p.bytes).2 }
  | unlink p => t = { s with fs := (abyssfsUnlink s.fs p.bytes).2 }
  | removeRecursive p =>
    t.heap = s.heap ∧ ∃ fuel ret, abyssfsRemoveRecursive fuel s.fs p.bytes = some (ret, t.fs)

/-- There is room in the root block for a record whose name has `len` bytes. -/
def Room (fs : AbyssFs) (len : Nat) : Prop :=
  20 + ((rootEntries fs).map fun e => recSize e.name.length).sum + recSize len ≤ 4088

/-- The root block does not become overfull: what the call adds to it has room. -/
def Fits (fs : AbyssFs) : RootCall → Prop
  | create p => (allocInode fs).1 ≠ 0 → Room fs ((basename p.strip).length % 256)
  | mkdir p => (allocInode fs).1 ≠ 0 → (allocBlock (allocInode fs).2).1 ≠ 0 →
      Room fs ((basename p.strip).length % 256)
  | unlink _ | removeRecursive _ => True

/-- The call spares the root: what it creates has a name whose record length is computed
without overflow, and what it removes is not one of the root's own records. -/
def Spares : RootCall → Prop
  | create p | mkdir p => (basename p.strip).length % 256 ≤ 249
  | unlink p | removeRecursive p => p.strip ≠ str ['.'] ∧ p.strip ≠ str ['.', '.']

/-- The call removes. -/
def Removes : RootCall → Prop
  | unlink _ | removeRecursive _ => True
  | _ => False

end RootCall

/-- The calls with which the root block never becomes overfull. -/
def rootLts : Lts RootState RootCall where
  step s call t := call.Fits s.fs ∧ call.Step s t

/-- Those of them that spare the root. -/
def sparingLts : Lts RootState RootCall where
  step s call t := rootLts.step s call t ∧ call.Spares

/-- The root is a directory in block 9, which is taken, and nobody is given its inode or
its block. -/
structure RootSurvives (fs : AbyssFs) : Prop where
  directory : (fs.inodes 1).mode &&& 0x4000 ≠ 0
  blocks : (fs.inodes 1).blocks = rootBlock
  taken : fs.blockBitmap.getLsbD rootBlock = true
  allocInode : (allocInode fs).1 ≠ 1
  allocBlock : (allocBlock fs).1 ≠ rootBlock

/-! ## One removal -/

/-- What `abyssfs_remove_recursive` does with one entry of the listing, its recursive call
being `remove`. -/
def removeStep (remove : AbyssFs → Str → Option (Int × AbyssFs)) (path : Str) (fs : AbyssFs)
    (e : Dirent) : Option AbyssFs :=
  if e.name = str ['.'] ∨ e.name = str ['.', '.'] then some fs
  else if (path ++ [slash] ++ e.name).length ≥ vfsMaxPath then none
  else
    match getInode fs e.inode with
    | some inode =>
      if inode.mode &&& 0x4000 ≠ 0 then (remove fs (path ++ [slash] ++ e.name)).map Prod.snd
      else some (abyssfsUnlink fs (path ++ [slash] ++ e.name)).2
    | none => some (abyssfsUnlink fs (path ++ [slash] ++ e.name)).2

theorem abyssfsRemoveRecursive_succ (fuel : Nat) (fs : AbyssFs) (path : Str) :
    abyssfsRemoveRecursive (fuel + 1) fs path =
      (((abyssfsReadDir fs path 256).getD []).foldlM
        (removeStep (abyssfsRemoveRecursive fuel) path) fs).map fun fs =>
          abyssfsUnlink fs path := by
  rw [Option.map_eq_bind]
  rfl

/-- The paths that recursive removal hands to `abyssfs_unlink` for the entries of a
listing are not the names of the root's own records. -/
theorem entry_path_spares {path name : Str} (hroot : path.dropWhile (· = slash) = [] → slash ∉ name)
    (hdots : ¬ (name = str ['.'] ∨ name = str ['.', '.'])) :
    (path ++ [slash] ++ name).dropWhile (· = slash) ≠ str ['.'] ∧
      (path ++ [slash] ++ name).dropWhile (· = slash) ≠ str ['.', '.'] := by
  by_cases hpath : path.dropWhile (· = slash) = []
  · have hstrip : (path ++ [slash]).dropWhile (· = slash) = [] := by
      rw [dropWhile_append_of_nil hpath]
      rfl
    rw [dropWhile_append_of_nil hstrip, dropWhile_of_notMem (hroot hpath)]
    exact not_or.1 hdots
  · have hmem : slash ∈ (path ++ [slash] ++ name).dropWhile (· = slash) := by
      rw [List.append_assoc, dropWhile_append_of_ne_nil hpath]
      simp
    constructor
    · intro heq
      rw [heq] at hmem
      exact absurd hmem (by decide)
    · intro heq
      rw [heq] at hmem
      exact absurd hmem (by decide)

namespace RootKept

variable {fs fs' : AbyssFs} {rs : List DirRecord} {path : Str}

/-- A removal of a name that is not one of the root's own records keeps the invariant. -/
theorem unlink (h : RootKept fs rs) (hnul : NulFree path)
    (hspares : path.dropWhile (· = slash) ≠ str ['.'] ∧
    path.dropWhile (· = slash) ≠ str ['.', '.']) :
    ∃ rs', RootKept (abyssfsUnlink fs path).2 rs' := by
  have hnul' : NulFree (path.dropWhile (· = slash)) :=
    fun hmem => hnul ((List.dropWhile_sublist _).mem hmem)
  rcases cut_at_name rs (path.dropWhile (· = slash)) with hne | ⟨us, r, ts, rfl, hr, hne⟩
  · rw [h.unlink_none rfl hnul' hspares hne]
    exact ⟨rs, h⟩
  · rw [← hr] at hspares hne
    exact ⟨_, (h.unlink_some hr.symm hspares hne).2⟩

/-- One of the root's own records is found under its name, and it refers to inode 1. -/
theorem findEntry_dots (h : RootKept fs rs)
    (hdots : path = str ['.'] ∨ path = str ['.', '.']) :
    ∃ dir, findEntry fs.blocks path walkFuel rootAddr = some dir ∧ fs.blocks.word dir = 1 := by
  obtain ⟨fresh, -, hchain, -⟩ := h.dir.chain
  rcases hdots with rfl | rfl
  · have hcut : rootRecords fresh rs = [] ++ dot :: (dotdot fresh :: rs) := rfl
    rw [hcut] at hchain
    exact ⟨_, findEntry_some hchain dot.name_nul (by simp) rfl (by decide), hchain.stored.1⟩
  · have hcut : rootRecords fresh rs = [dot] ++ dotdot fresh :: rs := rfl
    rw [hcut] at hchain
    refine ⟨_, findEntry_some hchain (dotdot false).name_nul ?_ rfl (by decide), hchain.stored.1⟩
    intro q hq
    rw [List.mem_singleton.1 hq]
    decide

/-- A removal of one of the root's own records takes inode 1 out of use and gives its block
back. -/
theorem unlink_dots (h : RootKept fs rs)
    (hdots : path.dropWhile (· = slash) = str ['.'] ∨ path.dropWhile (· = slash) = str ['.', '.']) :
    ∃ m, abyssfsUnlink fs path =
      (0, { freeBlock (fs.setInode 1 { fs.inodes 1 with mode := 0 })
        rootBlock with blocks := m }) := by
  obtain ⟨dir, hfind, hword⟩ := h.findEntry_dots hdots
  have haddr : rootBlock * blockSize = rootAddr := rfl
  have hget : getInode fs 1 = some (fs.inodes 1) := rfl
  have hblock : (fs.inodes 1).blocks = rootBlock := h.own.root.2
  have hne : rootBlock ≠ 0 := by decide
  simp only [abyssfsUnlink, haddr, hfind, hword, releaseInode, hget, hblock, if_pos hne]
  exact ⟨_, rfl⟩

theorem mode_of_unlink_dots (h : RootKept fs rs)
    (hdots : path.dropWhile (· = slash) = str ['.'] ∨ path.dropWhile (· = slash) = str ['.', '.']) :
    ((abyssfsUnlink fs path).2.inodes 1).mode = 0 := by
  obtain ⟨m, hcall⟩ := h.unlink_dots hdots
  have hlt : rootBlock < totalBlocks := by decide
  rw [hcall, freeBlock, if_pos hlt]
  exact congrArg Inode.mode setInode_self

/-- The listing of a path that is nothing but slashes shows the root's records. -/
theorem listing_noSlash (h : RootKept fs rs) (hpath : path.dropWhile (· = slash) = []) {e : Dirent}
    (he : e ∈ (abyssfsReadDir fs path 256).getD []) : slash ∉ e.name := by
  have hblock : (some rootBlock).bind getBlock = some rootAddr := rfl
  simp only [abyssfsReadDir, hpath, if_true, hblock, Option.getD_some, h.dir.readEntries_eq] at he
  obtain ⟨r, hr, rfl⟩ := List.mem_map.1 (List.mem_of_mem_take he)
  rcases List.mem_cons.1 hr with rfl | hr
  · decide
  · rcases List.mem_cons.1 hr with rfl | hr
    · decide
    · exact h.noSlash r hr

end RootKept

/-- Listed names are C strings. -/
theorem readEntries_nulFree {m : ByteMem} {c a : Nat} {e : Dirent} (he : e ∈ readEntries m c a) :
    NulFree e.name := by
  induction c generalizing a with
  | zero => cases he
  | succ c ih =>
    rw [readEntries] at he
    split at he
    · rcases List.mem_cons.1 he with rfl | he
      · exact ByteMem.zero_notMem_cstring _ _ _
      · exact ih he
    · cases he

theorem abyssfsReadDir_nulFree {fs : AbyssFs} {path : Str} {c : Nat} {e : Dirent}
    (he : e ∈ (abyssfsReadDir fs path c).getD []) : NulFree e.name := by
  unfold abyssfsReadDir at he
  dsimp only at he
  split at he
  · cases he
  · exact readEntries_nulFree he

/-- **Recursive removal** keeps the invariant up to its last step, which removes its own path. -/
theorem RootKept.removeRecursive {fuel : Nat} {fs : AbyssFs} {rs : List DirRecord} {path : Str}
    {x : Int × AbyssFs} (h : RootKept fs rs) (hnul : NulFree path)
    (hx : abyssfsRemoveRecursive fuel fs path = some x) :
    ∃ fs₁ rs₁, RootKept fs₁ rs₁ ∧ x = abyssfsUnlink fs₁ path := by
  induction fuel generalizing fs rs path x with
  | zero => cases hx
  | succ fuel ih =>
    rw [abyssfsRemoveRecursive_succ, Option.map_eq_some_iff] at hx
    obtain ⟨fs₁, hfold, rfl⟩ := hx
    -- every entry is removed under a path that spares the root
    have hentry : ∀ e ∈ (abyssfsReadDir fs path 256).getD [],
        NulFree (path ++ [slash] ++ e.name) ∧ (¬ (e.name = str ['.'] ∨ e.name = str ['.', '.']) →
          (path ++ [slash] ++ e.name).dropWhile (· = slash) ≠ str ['.'] ∧
            (path ++ [slash] ++ e.name).dropWhile (· = slash) ≠ str ['.', '.']) := by
      intro e he
      refine ⟨?_, entry_path_spares fun hpath => h.listing_noSlash hpath he⟩
      intro hmem
      rcases List.mem_append.1 hmem with hmem | hmem
      · rcases List.mem_append.1 hmem with hmem | hmem
        · exact hnul hmem
        · exact absurd hmem (by decide)
      · exact abyssfsReadDir_nulFree he hmem
    have hstep : ∀ e ∈ (abyssfsReadDir fs path 256).getD [], ∀ fs₂ rs₂ fs₃, RootKept fs₂ rs₂ →
        removeStep (abyssfsRemoveRecursive fuel) path fs₂ e = some fs₃ → ∃ rs₃,
          RootKept fs₃ rs₃ := by
      intro e he fs₂ rs₂ fs₃ h₂ hstep
      obtain ⟨hnul', hspares⟩ := hentry e he
      rw [removeStep] at hstep
      split at hstep
      · cases hstep
        exact ⟨rs₂, h₂⟩
      · next hdots =>
        have hunlink : ∀ fs₄ rs₄, RootKept fs₄ rs₄ →
            ∃ rs₅, RootKept (abyssfsUnlink fs₄ (path ++ [slash] ++ e.name)).2 rs₅ :=
          fun fs₄ rs₄ h₄ => h₄.unlink hnul' (hspares hdots)
        split at hstep
        · cases hstep
        · split at hstep
          · split at hstep
            · obtain ⟨y, hy, rfl⟩ := Option.map_eq_some_iff.1 hstep
              obtain ⟨fs₄, rs₄, h₄, rfl⟩ := ih h₂ hnul' hy
              exact hunlink fs₄ rs₄ h₄
            · cases hstep
              exact hunlink fs₂ rs₂ h₂
          · cases hstep
            exact hunlink fs₂ rs₂ h₂
    have hrun : ∀ es : List Dirent, (∀ e ∈ es, e ∈ (abyssfsReadDir fs path 256).getD []) →
        ∀ fs₂ rs₂, RootKept fs₂ rs₂ →
          es.foldlM (removeStep (abyssfsRemoveRecursive fuel) path) fs₂ = some fs₁ →
          ∃ rs₁, RootKept fs₁ rs₁ := by
      intro es
      induction es with
      | nil =>
        intro _ fs₂ rs₂ h₂ hfold
        cases hfold
        exact ⟨rs₂, h₂⟩
      | cons e es ih =>
        intro hes fs₂ rs₂ h₂ hfold
        rw [List.foldlM_cons] at hfold
        obtain ⟨fs₃, he, hfold⟩ := Option.bind_eq_some_iff.1 hfold
        obtain ⟨rs₃, h₃⟩ := hstep e (hes e List.mem_cons_self) fs₂ rs₂ fs₃ h₂ he
        exact ih (fun q hq => hes q (List.mem_cons_of_mem _ hq)) fs₃ rs₃ h₃ hfold
    obtain ⟨rs₁, h₁⟩ := hrun _ (fun e he => he) fs rs h hfold
    exact ⟨fs₁, rs₁, h₁, rfl⟩

/-! ## Whole runs -/

section Step

variable {s t : RootState} {call : RootCall} {rs : List DirRecord}

theorem RootKept.room_iff {fs : AbyssFs} (h : RootKept fs rs) {len : Nat} :
    RootCall.Room fs len ↔ 20 + dirFormat.span rs + recSize len ≤ 4088 := by
  rw [RootCall.Room, h.dir.rootEntries_eq, h.dir.span_eq]

theorem PathArg.basename_nulFree (p : PathArg) : NulFree (basename p.strip) :=
  NulFree.basename fun hmem => p.nul_free ((List.dropWhile_sublist _).mem hmem)

/-- **One call** that spares the root keeps its invariant, for some entries. -/
theorem RootKept.step (h : RootKept s.fs rs) (hstep : rootLts.step s call t)
    (hspares : call.Spares) : ∃ rs', RootKept t.fs rs' := by
  obtain ⟨hfits, hstep⟩ := hstep
  cases call with
  | create p =>
    rw [hstep]
    rcases h.allocInode with hnone | ⟨i, hi, h2, -⟩
    · simp only [abyssfsCreate, hnone, if_true]
      exact ⟨rs, h⟩
    · have hroom := h.room_iff.1 (hfits (by rw [hi]; dsimp only; omega))
      rcases h.create s.heap p.bytes rfl p.basename_nulFree hspares hroom with
        ⟨-, hnone⟩ | ⟨-, -, -, -, -, -, added, hkept, -⟩
      · rw [hnone]
        exact ⟨rs, h⟩
      · exact ⟨_, hkept⟩
  | mkdir p =>
    rw [hstep]
    rcases h.allocInode with hnone | ⟨i, hi, h2, -, -, -, hinv⟩
    · simp only [abyssfsMkdir, hnone, if_true]
      exact ⟨rs, h⟩
    · by_cases hb : (allocBlock (OsArm.allocInode s.fs).2).1 = 0
      · have hcall : abyssfsMkdir s.fs [slash] p.bytes = (-1, (OsArm.allocInode s.fs).2) := by
          simp only [abyssfsMkdir, hi] at hb ⊢
          rw [if_neg (by omega), if_pos hb, allocBlock_eq_of_zero hb]
        rw [hcall]
        exact ⟨rs, hinv⟩
      · have hroom := h.room_iff.1 (hfits (by rw [hi]; dsimp only; omega) hb)
        rcases h.mkdir p.bytes rfl p.basename_nulFree hspares hroom with
          ⟨-, hkept⟩ | ⟨-, -, -, -, -, -, added, hkept, -⟩
        · exact ⟨rs, hkept⟩
        · exact ⟨_, hkept⟩
  | unlink p =>
    rw [hstep]
    exact h.unlink p.nul_free hspares
  | removeRecursive p =>
    obtain ⟨-, fuel, ret, hx⟩ := hstep
    obtain ⟨fs₁, rs₁, h₁, heq⟩ := h.removeRecursive p.nul_free hx
    rw [show t.fs = (abyssfsUnlink fs₁ p.bytes).2 from congrArg Prod.snd heq]
    exact h₁.unlink p.nul_free hspares

/-- A removal that does not spare the root takes inode 1 out of use. -/
theorem RootKept.not_spared (h : RootKept s.fs rs) (hstep : rootLts.step s call t)
    (hremoves : call.Removes) (hspares : ¬ call.Spares) : (t.fs.inodes 1).mode = 0 := by
  obtain ⟨-, hstep⟩ := hstep
  cases call with
  | create p => exact hremoves.elim
  | mkdir p => exact hremoves.elim
  | unlink p =>
    rw [hstep]
    exact h.mode_of_unlink_dots (by rwa [RootCall.Spares, not_and_or, not_not, not_not] at hspares)
  | removeRecursive p =>
    obtain ⟨-, fuel, ret, hx⟩ := hstep
    obtain ⟨fs₁, rs₁, h₁, heq⟩ := h.removeRecursive p.nul_free hx
    rw [show t.fs = (abyssfsUnlink fs₁ p.bytes).2 from congrArg Prod.snd heq]
    exact h₁.mode_of_unlink_dots (by rwa [RootCall.Spares, not_and_or, not_not, not_not] at hspares)

theorem RootKept.survives {fs : AbyssFs} (h : RootKept fs rs) : RootSurvives fs where
  directory := by
    rw [h.own.root.1]
    decide
  blocks := h.own.root.2
  taken := h.own.reserved rootBlock (Nat.le_refl _)
  allocInode := h.own.allocInode_ne_root
  allocBlock := by
    by_cases hb : (OsArm.allocBlock fs).1 = 0
    · rw [hb]
      decide
    · have := (h.own.allocBlock_fresh hb).1
      omega

end Step

/-- **The root survives** every run of calls that spare it, whatever paths they are given;
and from there on a removal leaves it alone if and only if it spares it. -/
theorem root_survives {heap : Heap} {m : ByteMem} {tr : List RootCall} {s : RootState}
    (hrun : sparingLts.Run (RootState.init heap m) tr s) :
    RootSurvives s.fs ∧ ∀ call t, rootLts.step s call t → call.Removes →
      (RootSurvives t.fs ↔ call.Spares) := by
  have hs : ∃ rs, RootKept s.fs rs := by
    refine hrun.invariant (P := fun s => ∃ rs, RootKept s.fs rs) ?_ ⟨[], (rootInv_init m).kept⟩
    rintro s call t ⟨rs, hs⟩ ⟨hstep, hspares⟩
    exact hs.step hstep hspares
  obtain ⟨rs, hs⟩ := hs
  refine ⟨hs.survives, fun call t hstep hremoves => ⟨?_, ?_⟩⟩
  · intro hsurvives
    by_contra hspares
    refine hsurvives.directory ?_
    rw [hs.not_spared hstep hremoves hspares]
    decide
  · intro hspares
    obtain ⟨rs', ht⟩ := hs.step hstep hspares
    exact ht.survives

/-- The path `"."`. -/
def dotPath : PathArg where
  bytes := str ['.']
  nul_free := dot.name_nul

/-- A free root inode is the first to be handed out. -/
theorem allocInode_of_mode_eq_zero {fs : AbyssFs} (h : (fs.inodes 1).mode = 0) :
    (allocInode fs).1 = 1 := by
  have hrange : List.range' 1 (maxInodes - 1) = 1 :: List.range' 2 (maxInodes - 2) := rfl
  rw [allocInode, hrange, List.find?_cons_of_pos (p := fun i => decide ((fs.inodes i).mode = 0))
    (decide_eq_true h)]

/-- A free root block is the first to be handed out. -/
theorem allocBlock_of_free {fs : AbyssFs}
    (h : fs.blockBitmap &&& BitSet.bit 64 rootBlock = 0#64) : (allocBlock fs).1 = rootBlock := by
  have hrange : List.range' firstDataBlock (totalBlocks - firstDataBlock) =
      rootBlock :: List.range' 10 54 := rfl
  rw [allocBlock, hrange, List.find?_cons_of_pos
    (p := fun i => decide (fs.blockBitmap &&& BitSet.bit 64 i = 0#64)) (decide_eq_true h)]

/-- `abyssfs_unlink(".")` on a fresh file system succeeds, and the next inode and block to be
handed out are the root's. -/
theorem unlink_dot_frees_root :
    ∃ t, rootLts.step (RootState.init (Heap.mk 0) fun _ => 0) (.unlink dotPath) t ∧
      (t.fs.inodes 1).mode = 0 ∧ (allocInode t.fs).1 = 1 ∧ (allocBlock t.fs).1 = 9 ∧
      ¬ RootSurvives t.fs := by
  have hinit : RootKept (abyssfsInit fun _ => 0) [] := (rootInv_init _).kept
  have hdot : dotPath.bytes.dropWhile (· = slash) = str ['.'] := rfl
  obtain ⟨m, hcall⟩ := hinit.unlink_dots (Or.inl hdot)
  have hmode := hinit.mode_of_unlink_dots (Or.inl hdot)
  have hinode := allocInode_of_mode_eq_zero hmode
  have hfree : (freeBlock ((abyssfsInit fun _ => 0).setInode 1
      { (abyssfsInit fun _ => 0).inodes 1 with mode := 0 }) rootBlock).blockBitmap &&&
        BitSet.bit 64 rootBlock = 0#64 := by decide
  have hblock : (allocBlock (abyssfsUnlink (abyssfsInit fun _ => 0) dotPath.bytes).2).1 =
      rootBlock :=
    allocBlock_of_free (by rw [hcall]; exact hfree)
  exact ⟨_, ⟨trivial, rfl⟩, hmode, hinode, hblock, fun hsurvives => hsurvives.allocInode hinode⟩

/-- Creating a file in a fresh file system. -/
theorem root_survives_create :
    ∃ s, sparingLts.Run (RootState.init (Heap.mk 0) fun _ => 0)
      [.create { bytes := nameA.bytes, nul_free := nameA.nul_free }] s ∧ RootSurvives s.fs := by
  have hinit : RootKept (abyssfsInit fun _ => 0) [] := (rootInv_init _).kept
  have hroom : RootCall.Room (abyssfsInit fun _ => 0) 1 := hinit.room_iff.2 (by decide)
  have hrun : sparingLts.Run (RootState.init (Heap.mk 0) fun _ => 0)
      ([] ++ [.create { bytes := nameA.bytes, nul_free := nameA.nul_free }]) _ :=
    Lts.Run.nil.snoc ⟨⟨fun _ => hroom, rfl⟩, (by decide : 1 % 256 ≤ 249)⟩
  exact ⟨_, hrun, (root_survives hrun).1⟩

end OsArm
