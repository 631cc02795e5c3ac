import OsArm.Abyss.Appending
import OsArm.Abyss.Failures
import OsArm.Abyss.Placement
import OsArm.Abyss.Survival
import OsArm.Abyss.Walks

/-!
# New directories in recycled blocks

`abyssfs_mkdir` writes `"."` and `".."` into its block and clears nothing behind them, and the
length of `".."` sends the walks to byte 256.

* `ReuseCall` — creating, writing, removing and making directories, in the root.
* `NewDirEmpty` — a new directory shows its two records only, and has no other name.
* `newDirEmpty_iff` — so it does if and only if byte 256 + 5 of its block held 0;
  `phantom_entry` is a directory that was given the block of a removed file.
-/

namespace OsArm

/-! ## The calls -/

/-- A call for a process whose directory is `"/"`; `write k buf` goes through the handle returned
as the `k`-th. -/
inductive ReuseCall
  | create (p : PathArg)
  | mkdir (p : PathArg)
  | unlink (p : PathArg)
  | write (k : Nat) (buf : List UInt8)

namespace ReuseCall

/-- The state after a call. -/
def apply (s : AbyssState) : ReuseCall → AbyssState
  | create p =>
    let r := abyssfsCreate s.heap s.fs [slash] p.bytes
    { heap := r.2.1, fs := r.2.2, handles := s.handles ++ r.1.toList }
  | mkdir p => { s with fs := (abyssfsMkdir s.fs [slash] p.bytes).2 }
  | unlink p => { s with fs := (abyssfsUnlink s.fs p.bytes).2 }
  | write k buf =>
    match s.handles[k]? with
    | none => s
    | some file => { s with fs := (abyssfsWrite s.fs file buf).2 }

/-- The call on directories that it is. -/
def toRootCall : ReuseCall → Option RootCall
  | create p => some (.create p)
  | mkdir p => some (.mkdir p)
  | unlink p => some (.unlink p)
  | write _ _ => none

/-- The root block does not become overfull. -/
def Fits (fs : AbyssFs) (call : ReuseCall) : Prop := ∀ c, call.toRootCall = some c → c.Fits fs

/-- The call spares the root. -/
def Spares (call : ReuseCall) : Prop := ∀ c, call.toRootCall = some c → c.Spares

end ReuseCall

/-- The calls with which the root block never becomes overfull. -/
def reuseLts : Lts AbyssState ReuseCall where
  step s call t := call.Fits s.fs ∧ t = call.apply s

/-- **The directory `n`, just made with inode `i`, is empty**: its listing shows its own two
records, and no other name leads anywhere. -/
structure NewDirEmpty (fs : AbyssFs) (n : EntryName) (i : Nat) : Prop where
  listing : ∀ count, abyssfsReadDir fs (slash :: n.bytes) count =
    some ([{ inode := i, name := str ['.'] }, { inode := 1, name := str ['.', '.'] }].take count)
  missing : ∀ x : Str, NulFree x → slash ∉ x → x ≠ [] → x ≠ str ['.'] → x ≠ str ['.', '.'] →
    getInodeByPath fs (slash :: n.bytes ++ slash :: x) = none

/-- What the walks read as a length behind `".."`, in the block that is allocated next. -/
def staleLength (fs : AbyssFs) : Nat := recLen fs.blocks ((allocBlock fs).1 * blockSize + 256)

/-! ## The runs -/

/-- The handles refer to inodes other than the root's, whose invariant holds. -/
def ReuseInv (s : AbyssState) : Prop := (∃ rs, RootKept s.fs rs) ∧ HandlesOk s

/-- A handle returned by `abyssfs_create` is not on the root. -/
theorem RootKept.privateData_ne {fs : AbyssFs} {rs : List DirRecord} {heap : Heap} {cwd path : Str}
    (h : RootKept (abyssfsCreate heap fs cwd path).2.2 rs) {file : VfsFile}
    (hfile : (abyssfsCreate heap fs cwd path).1 = some file) : file.privateData ≠ 1 := by
  intro hone
  have hfresh := (abyssfsCreate_fresh hfile).2.2
  rw [hone] at hfresh
  have hroot := h.own.root.2
  rw [hfresh] at hroot
  exact absurd hroot (by decide)

/-- **One call** that spares the root keeps the invariant. -/
theorem ReuseInv.step {s t : AbyssState} {call : ReuseCall} (h : ReuseInv s)
    (hstep : reuseLts.step s call t) (hspares : call.Spares) : ReuseInv t := by
  obtain ⟨⟨rs, hkept⟩, hhandles⟩ := h
  obtain ⟨hfits, rfl⟩ := hstep
  have hroot : ∀ c u, call.toRootCall = some c → c.Step { heap := s.heap, fs := s.fs } u →
      ∃ rs', RootKept u.fs rs' :=
    fun c u hc hu => RootKept.step (s := { heap := s.heap, fs := s.fs }) hkept ⟨hfits c hc, hu⟩
      (hspares c hc)
  cases call with
  | create p =>
    obtain ⟨rs', hkept'⟩ := hroot _ _ rfl rfl
    exact ⟨⟨rs', hkept'⟩, hhandles.append fun f hf => hkept'.privateData_ne hf⟩
  | mkdir p => exact ⟨hroot _ _ rfl rfl, hhandles⟩
  | unlink p => exact ⟨hroot _ _ rfl rfl, hhandles⟩
  | write k buf =>
    cases hfile : s.handles[k]? with
    | none =>
      simp only [ReuseCall.apply, hfile]
      exact ⟨⟨rs, hkept⟩, hhandles⟩
    | some file =>
      simp only [ReuseCall.apply, hfile]
      exact ⟨⟨rs, hkept.write (hhandles file (List.mem_of_getElem? hfile)) buf⟩, hhandles⟩

/-! ## One new directory -/

section MkDir

variable {fs : AbyssFs} {rs : List DirRecord} {n : EntryName}

/-- **What a successful `abyssfs_mkdir` leaves behind**: its entry in the root, and in the block it
allocated the two records over what was there before. -/
theorem RootKept.mkdir_blocks (h : RootKept fs rs) (n : EntryName)
    (hroom : 20 + dirFormat.span rs + recSize n.bytes.length ≤ 4088)
    (hok : (abyssfsMkdir fs [slash] n.bytes).1 = 0) :
    ∃ (i b : Nat) (hi : i < maxInodes), (OsArm.allocInode fs).1 = i ∧ (allocBlock fs).1 = b ∧
      firstDataBlock < b ∧ b < totalBlocks ∧
      RootKept (abyssfsMkdir fs [slash] n.bytes).2 (rs ++ [n.record i hi]) ∧
      ((abyssfsMkdir fs [slash] n.bytes).2.inodes i).blocks = b ∧
      ∀ x, b * blockSize ≤ x → x < b * blockSize + blockSize →
        (abyssfsMkdir fs [slash] n.bytes).2.blocks x = putDots fs.blocks (b * blockSize) i x := by
  have hsame : (allocBlock (OsArm.allocInode fs).2).1 = (allocBlock fs).1 :=
    allocBlock_congr (allocInode_bitmap fs)
  rcases h.allocInode with hnone | ⟨i, hi, h2, hlt, -, hfresh, hinv⟩
  · simp only [abyssfsMkdir, hnone, if_true] at hok
    exact absurd hok (by decide)
  · have hi32 : i < 2 ^ 32 := inode_lt_two_pow hlt
    have hne : (OsArm.allocInode fs).1 ≠ 0 := by
      rw [hi]
      dsimp only
      omega
    by_cases hb : (allocBlock (OsArm.allocInode fs).2).1 = 0
    · have hfail : (abyssfsMkdir fs [slash] n.bytes).1 = -1 := by
        simp only [abyssfsMkdir, if_neg hne, if_pos hb]
      rw [hfail] at hok
      exact absurd hok (by decide)
    · have hlive : ((OsArm.allocInode fs).2.inodes i).mode ≠ 0 := by
        rw [hi, setInode_self]
        simp
      obtain ⟨hinv₁, hlive₁⟩ := hinv.initDir hfresh (by omega) hlive hb
      obtain ⟨hdata, hhigh, -⟩ := hinv.own.allocBlock_fresh hb
      set b := (allocBlock (OsArm.allocInode fs).2).1 with hbdef
      set fs₁ := OsArm.initDir (allocBlock (OsArm.allocInode fs).2).2 i b with hfs₁
      have hmod := n.length_mod
      obtain ⟨prev, hprev, hspec⟩ := hinv₁.dir.create n.nul_free n.length_le hi32 hroom
      obtain ⟨-, hout⟩ := hspec _ rfl
      have hcreate := hinv₁.createFile_eq hprev n.bytes i
      have hcall : abyssfsMkdir fs [slash] n.bytes =
          (0, (OsArm.createFile fs₁ [slash] n.bytes i).2) := by
        have heq : (OsArm.createFile (OsArm.initDir (allocBlock (OsArm.allocInode fs).2).2
            (OsArm.allocInode fs).1 (allocBlock (OsArm.allocInode fs).2).1) [slash] n.bytes
            (OsArm.allocInode fs).1).1 = 0 → abyssfsMkdir fs [slash] n.bytes = _ :=
          abyssfsMkdir_eq hne hb n.basename_strip
        rw [show (OsArm.allocInode fs).1 = i by rw [hi], ← hbdef, ← hfs₁, hcreate] at heq
        rw [heq rfl, hcreate]
      have hkept : RootKept (abyssfsMkdir fs [slash] n.bytes).2 (rs ++ [n.record i hlt]) := by
        obtain ⟨-, -, added, hadd, hadded⟩ := hinv₁.createFile n.bytes
          (by rw [n.basename_eq]; exact n.nul_free) h2 hlt hi32 hlive₁ hfresh
          (by rw [n.basename_eq, hmod]; have := n.length_le; omega) (by rwa [n.basename_eq, hmod])
        rw [hadded (by rw [n.basename_eq]; exact n.length_le),
          entryRecord_congr n.basename_eq] at hadd
        rw [hcall]
        exact hadd
      have hblocks : fs₁.blocks = putDots fs.blocks (b * blockSize) i := by
        rw [hfs₁]
        simp only [OsArm.initDir, setInode_blocks, (allocBlock_frame _).1]
        rw [hi]
        rfl
      refine ⟨i, b, hlt, by rw [hi], hsame.symm, hdata, hhigh, hkept, ?_, fun x hlow hx => ?_⟩
      · rw [hcall]
        simp only [createFile_inodes, hfs₁, OsArm.initDir, setInode_self]
      · have hlow' : rootAddr + blockSize ≤ x := by
          have hle : (rootBlock + 1) * blockSize ≤ b * blockSize := Nat.mul_le_mul_right _ hdata
          have hend : (rootBlock + 1) * blockSize = rootAddr + blockSize := Nat.succ_mul _ _
          omega
        rw [hcall, hcreate, n.basename_eq, ← hblocks]
        exact hout x (Or.inr hlow')

/-- The components of a path that starts with a name. -/
theorem EntryName.components_eq (n : EntryName) :
    components (slash :: n.bytes) = [n.bytes] ∧ ∀ x : Str,
      components (slash :: n.bytes ++ slash :: x) =
        n.bytes :: tokens (x.take (254 - n.bytes.length)) := by
  have hle := n.length_le
  have hstrip : n.bytes.dropWhile (· = slash) ≠ [] := by
    rw [n.dropWhile_slash]
    exact n.nonempty
  constructor
  · rw [components, dropWhile_slash_cons, n.dropWhile_slash, List.take_of_length_le (by omega),
      tokens_name n.nonempty n.no_slash]
  · intro x
    have htake : (n.bytes ++ slash :: x).take 255 =
        n.bytes ++ slash :: x.take (254 - n.bytes.length) := by
      rw [List.take_append, List.take_of_length_le (by omega),
        show 255 - n.bytes.length = (254 - n.bytes.length) + 1 by omega, List.take_succ_cons]
    rw [components, List.cons_append, dropWhile_slash_cons, dropWhile_append_of_ne_nil hstrip,
      n.dropWhile_slash, htake, tokens_append, tokens_name n.nonempty n.no_slash]
    rfl

/-- **The new directory is empty** if and only if the byte that is read as a length behind its
records was 0. -/
theorem RootKept.newDirEmpty_iff (h : RootKept fs rs) (n : EntryName)
    (hroom : 20 + dirFormat.span rs + recSize n.bytes.length ≤ 4088)
    (hfresh : ∀ r ∈ rs, r.name ≠ n.bytes) (hok : (abyssfsMkdir fs [slash] n.bytes).1 = 0) :
    NewDirEmpty (abyssfsMkdir fs [slash] n.bytes).2 n (OsArm.allocInode fs).1 ↔
      staleLength fs = 0 := by
  obtain ⟨i, b, hi, halloc, hb, hlow, hhigh, hkept, hnode, hblocks⟩ := h.mkdir_blocks n hroom hok
  rw [halloc, staleLength, hb]
  set t := (abyssfsMkdir fs [slash] n.bytes).2 with ht
  have hi32 : i < 2 ^ 32 := inode_lt_two_pow hi
  have hbne : b ≠ 0 := Nat.ne_of_gt (Nat.lt_of_le_of_lt (Nat.zero_le _) hlow)
  -- the name leads to the new inode
  have hsearch : ∀ ts, (searchTokens t 1 (n.bytes :: ts)).1 = (searchTokens t i ts).1 := by
    intro ts
    obtain ⟨hfind, hstored⟩ := hkept.dir.findEntry_eq_some (r := n.record i hi) n.ne_dots hfresh
    have hroot : ¬ ((t.inodes 1).blocks = 0 ∨ totalBlocks ≤ (t.inodes 1).blocks) := by
      rw [hkept.own.root.2]
      decide
    have hword : t.blocks.word (rootAddr + (20 + dirFormat.span rs)) = i := hstored.1
    have haddr : (t.inodes 1).blocks * blockSize = rootAddr := by
      rw [hkept.own.root.2]
      rfl
    rw [n.record_name] at hfind
    rw [searchTokens]
    simp only [if_neg hroot, haddr, hfind, hword, if_neg (Nat.not_le.2 hi)]
  have hread : ∀ count, abyssfsReadDir t (slash :: n.bytes) count =
      some (readEntries t.blocks count (b * blockSize)) := by
    intro count
    have hpath : getInodeByPath t n.bytes = some i := by
      rw [← n.dropWhile_slash, ← dropWhile_slash_cons, getInodeByPath_dropWhile,
        getInodeByPath_search, n.components_eq.1, hsearch]
      rfl
    have hblock : getBlock b = some (b * blockSize) := if_neg (Nat.not_le.2 hhigh)
    simp only [abyssfsReadDir, dropWhile_slash_cons, n.dropWhile_slash, if_neg n.nonempty, hpath,
      Option.map_some, Option.bind_some, hnode, hblock]
  constructor
  · -- a third record would show
    intro hempty
    by_contra hstale
    have hchain : dirFormat.Chain (putDots fs.blocks (b * blockSize) i) (b * blockSize)
        [selfDot i hi32, dotdot true] := putDots_chain hi32
    have hlens : recLen t.blocks (b * blockSize) = 8 ∧ recLen t.blocks (b * blockSize + 8) = 248 ∧
        0 < recLen t.blocks (b * blockSize + 8 + 248) := by
      have hbyte : ∀ x, x < blockSize → t.blocks (b * blockSize + x) =
          putDots fs.blocks (b * blockSize) i (b * blockSize + x) :=
        fun x hx => hblocks _ (Nat.le_add_right _ _) (Nat.add_lt_add_left hx _)
      refine ⟨?_, ?_, ?_⟩
      · rw [recLen, hbyte 5 (by decide)]
        exact hchain.1.2.2.1
      · rw [recLen, Nat.add_assoc, hbyte 13 (by decide)]
        exact hchain.2.1.2.2.1
      · rw [recLen, Nat.add_assoc, Nat.add_assoc, hbyte 261 (by decide),
          putDots_outside (Or.inr (Nat.add_le_add_left (by decide) _))]
        exact Nat.pos_of_ne_zero hstale
    have hthree := hread 3
    rw [hempty.listing 3, Option.some.injEq] at hthree
    have hlen := congrArg List.length hthree
    rw [readEntries, if_pos (by omega), readEntries, hlens.1, if_pos (by omega),
      readEntries, hlens.2.1, if_pos hlens.2.2] at hlen
    exact absurd hlen (by simp [readEntries])
  · intro hclean
    have hdir : DirBlock t.blocks (b * blockSize) i [] :=
      (dirBlock_putDots hi32 hclean).frame hblocks
    refine ⟨?_, ?_⟩
    · intro count
      rw [hread, hdir.readEntries_eq]
      rfl
    · intro x hnul hslash hne hdot hdotdot
      have hle := n.length_le
      set y := x.take (254 - n.bytes.length) with hy
      have hsub : ∀ c ∈ y, c ∈ x := fun c hc => List.mem_of_mem_take hc
      have hyne : y ≠ [] := by
        intro hnil
        rw [hy, List.take_eq_nil_iff] at hnil
        rcases hnil with hzero | hnil
        · omega
        · exact hne hnil
      have hdots : ∀ r ∈ dirRecords i hdir.ino_lt false [], r.name ≠ y := by
        have hcut : ∀ z : Str, z.length ≤ 2 → y = z → x = z := by
          intro z hz hyz
          rw [← hyz] at hz ⊢
          rw [hy, List.length_take] at hz
          rw [hy, List.take_of_length_le (by omega)]
        refine List.forall_mem_cons.2 ⟨fun heq => hdot (hcut _ (by decide) heq.symm), ?_⟩
        exact List.forall_mem_cons.2 ⟨fun heq => hdotdot (hcut _ (by decide) heq.symm), by simp⟩
      have hnone : findEntry t.blocks y walkFuel (b * blockSize) = none :=
        hdir.findEntry_eq_none (fun hz => hnul (hsub 0 hz)) hdots
      have hblock : ¬ ((t.inodes i).blocks = 0 ∨ totalBlocks ≤ (t.inodes i).blocks) := by
        rw [hnode]
        exact not_or.2 ⟨hbne, Nat.not_le.2 hhigh⟩
      rw [getInodeByPath_search, n.components_eq.2, hsearch,
        tokens_name hyne fun hs => hslash (hsub slash hs), searchTokens]
      rw [hnode] at hblock
      simp only [hnode, hnone, if_neg hblock]

end MkDir

/-- **A new directory is empty**, in every state that calls lead to which spare the root, if and
only if the byte behind its two records that is read as a length was 0. -/
theorem new_directory_empty_iff {heap : Heap} {m : ByteMem} {tr : List ReuseCall} {s : AbyssState}
    (hrun : (reuseLts.only fun _ call _ => call.Spares).Run (AbyssState.init heap m) tr s)
    (n : EntryName) (hroom : RootCall.Room s.fs n.bytes.length)
    (hfresh : ∀ e ∈ rootEntries s.fs, e.name ≠ n.bytes)
    (hok : (abyssfsMkdir s.fs [slash] n.bytes).1 = 0) :
    NewDirEmpty (abyssfsMkdir s.fs [slash] n.bytes).2 n (allocInode s.fs).1 ↔
      staleLength s.fs = 0 := by
  have hinv : ReuseInv s := by
    refine hrun.invariant (P := ReuseInv) ?_ ⟨⟨[], (rootInv_init m).kept⟩, handlesOk_init heap m⟩
    rintro t call u ht ⟨hstep, hspares⟩
    exact ht.step hstep hspares
  obtain ⟨⟨rs, hkept⟩, -⟩ := hinv
  rw [hkept.dir.rootEntries_eq] at hfresh
  exact hkept.newDirEmpty_iff n (hkept.room_iff.1 hroom)
    (fun r hr => hfresh _ (List.mem_map_of_mem hr)) hok

/-! ## A directory in the block of a removed file -/

/-- `abyssfs_mkdir` in the root, with an inode and a block. -/
theorem RootKept.mkdir_zero {fs : AbyssFs} {rs : List DirRecord}
    (h : RootKept fs rs) (n : EntryName)
    (hroom : 20 + dirFormat.span rs + recSize n.bytes.length ≤ 4088)
    (hi : (OsArm.allocInode fs).1 ≠ 0) (hb : (allocBlock (OsArm.allocInode fs).2).1 ≠ 0) :
    (abyssfsMkdir fs [slash] n.bytes).1 = 0 := by
  have hmod := n.length_mod
  have hle := n.length_le
  have hdir : FindsDir (mkdirState fs) [slash] := ⟨1, if_neg (by simp), Or.inr rfl⟩
  rcases h.mkdir n.bytes n.basename_strip n.nul_free (by rw [hmod]; omega) (by rwa [hmod]) with
    ⟨hret, -⟩ | ⟨-, -, -, -, -, hret, -⟩
  · exact absurd hret ((abyssfsMkdir_zero_iff hi).2 ⟨hb, hdir⟩)
  · exact hret

/-- The bitmap after a write to a file without a block. -/
theorem abyssfsWrite_bitmap {fs : AbyssFs} {file : VfsFile} (buf : List UInt8)
    (hn : file.privateData < maxInodes) (hnone : (fs.inodes file.privateData).blocks = 0)
    (hb : (allocBlock fs).1 ≠ 0) :
    (abyssfsWrite fs file buf).2.blockBitmap = (allocBlock fs).2.blockBitmap := by
  simp only [abyssfsWrite, getInode_of_lt hn, writeToBlocks, hnone, if_true, if_neg hb]
  split <;> split <;> rfl

/-- The three calls: `a` is created, filled with the byte `c`, and removed. -/
def recycling (c : UInt8) : List ReuseCall :=
  [.create { bytes := nameA.bytes, nul_free := nameA.nul_free }, .write 0 (List.replicate 4096 c),
    .unlink { bytes := nameA.bytes, nul_free := nameA.nul_free }]

/-- What such a write to a new file and its removal leave behind. -/
theorem recycled_block {fs : AbyssFs} {file : VfsFile} {hi : 2 < maxInodes}
    (h : RootInv fs [nameA.record 2 hi]) (hfile : file.privateData = 2)
    (hnode : fs.inodes 2 = { mode := 0x1FF, size := 0, blocks := 0 })
    (hbitmap : fs.blockBitmap = (abyssfsInit fun _ => 0).blockBitmap) {c : UInt8} {fs' : AbyssFs}
    (hfs : fs' = (abyssfsUnlink (abyssfsWrite fs file (List.replicate 4096 c)).2 nameA.bytes).2) :
    RootKept fs' [] ∧ (fs'.inodes 2).mode = 0 ∧ (allocBlock fs').1 = 10 ∧
      fs'.blocks (10 * blockSize + 261) = c := by
  have hten : (allocBlock fs).1 = 10 := by
    rw [allocBlock_congr hbitmap]
    decide
  have hb : (allocBlock fs).1 ≠ 0 := by
    rw [hten]
    decide
  -- the write
  obtain ⟨fs₂, hfs₂⟩ : ∃ fs₂, fs₂ = (abyssfsWrite fs file (List.replicate 4096 c)).2 := ⟨_, rfl⟩
  have hkept₂ : RootInv fs₂ [nameA.record 2 hi] := by
    rw [hfs₂]
    exact h.write (by rw [hfile]; decide) _
  have hlen : (List.replicate 4096 c).length = 4096 := List.length_replicate
  have hnode' : (fs.inodes file.privateData) = { mode := 0x1FF, size := 0, blocks := 0 } := by
    rw [hfile, hnode]
  have hlt : file.privateData < maxInodes := by rw [hfile]; exact hi
  have hgiven : ((allocBlock fs).2.setInode file.privateData
      { fs.inodes file.privateData with blocks := (allocBlock fs).1 }).inodes file.privateData =
        { mode := 0x1FF, size := 0, blocks := 10 } := by
    rw [setInode_self, hnode', hten]
  obtain ⟨-, hnode₂, hbytes₂⟩ :=
    abyssfsWrite_of_block (List.replicate 4096 c) hlt hgiven (by decide)
    (by rw [hlen]; decide) (by rw [hlen]; decide)
  rw [← abyssfsWrite_of_no_block _ hlt (by rw [hnode']) hb, ← hfs₂] at hnode₂ hbytes₂
  have hbitmap₂ : fs₂.blockBitmap = 0x7FF#64 := by
    rw [hfs₂, abyssfsWrite_bitmap _ hlt (by rw [hnode']) hb]
    rcases allocBlock_spec fs with hnone | ⟨b, hb', -, -, -, -, -, hbits⟩
    · rw [hnone] at hb
      exact absurd rfl hb
    · rw [hbits, ← hb', hten, hbitmap]
      decide
  -- the removal
  rw [hfile] at hnode₂
  have hcut : ([] : List DirRecord) ++ nameA.record 2 hi :: [] = [nameA.record 2 hi] := rfl
  have hname : nameA.bytes.dropWhile (· = slash) = (nameA.record 2 hi).name := nameA.dropWhile_slash
  rw [← hcut] at hkept₂
  obtain ⟨-, hkept₃⟩ := hkept₂.kept.unlink_some hname nameA.ne_dots (by simp)
  have hcall := hkept₂.dir.unlink_some hname nameA.ne_dots (by simp)
  obtain ⟨-, hout⟩ := hkept₂.dir.remove (Eq.refl (rootAddr + (20 + dirFormat.span [])))
  have hrelease : releaseInode fs₂ 2 = freeBlock (fs₂.setInode 2
      { fs₂.inodes 2 with mode := 0 }) 10 := by
    rw [releaseInode, getInode_of_lt hi]
    simp only [hnode₂]
    rfl
  have hinode : (nameA.record 2 hi).inode = 2 := rfl
  rw [← hfs₂, hcall, hinode, hrelease] at hfs
  rw [hcall, hinode, hrelease, ← hfs] at hkept₃
  refine ⟨hkept₃, ?_, ?_, ?_⟩
  · rw [hfs]
    rfl
  · have hbits : fs'.blockBitmap = (abyssfsInit fun _ => 0).blockBitmap := by
      have hfree : fs'.blockBitmap = fs₂.blockBitmap &&& ~~~BitSet.bit 64 10 := by
        rw [hfs]
        rfl
      rw [hfree, hbitmap₂]
      decide
    rw [allocBlock_congr hbits]
    decide
  · have hlow : rootAddr + blockSize ≤ 10 * blockSize + 261 := by decide
    rw [hfs]
    simp only
    rw [hout _ (Or.inr hlow), hbytes₂ 261, hlen, if_pos (by decide)]
    rfl

/-- What the three calls leave behind: no entry, and a block full of the byte. -/
theorem recycling_run (c : UInt8) : ∃ s,
    (reuseLts.only fun _ call _ => call.Spares).Run (AbyssState.init (Heap.mk 0) fun _ => 0)
      (recycling c) s ∧
    RootKept s.fs [] ∧ (s.fs.inodes 2).mode = 0 ∧ (allocBlock s.fs).1 = 10 ∧
    s.fs.blocks (10 * blockSize + 261) = c := by
  obtain ⟨a, ha⟩ : ∃ a : PathArg, a = { bytes := nameA.bytes, nul_free := nameA.nul_free } :=
    ⟨_, rfl⟩
  obtain ⟨-, hlt, hnode⟩ := abyssfsCreate_fresh abyssfsCreate_init
  have hbitmap := abyssfsCreate_bitmap (Heap.mk 0) (abyssfsInit fun _ => 0) [slash] nameA.bytes
  obtain ⟨hi, hinv⟩ := rootInv_create_init
  obtain ⟨fs, hfs⟩ : ∃ fs, fs = (abyssfsCreate (Heap.mk 0) (abyssfsInit fun _ => 0) [slash]
    nameA.bytes).2.2 := ⟨_, rfl⟩
  obtain ⟨file, hfile⟩ : ∃ file : VfsFile,
      file = { fOps := .abyssfs, privateData := 2, fPos := 0 } :=
    ⟨_, rfl⟩
  have hcreate : AbyssState.mk (abyssfsCreate (Heap.mk 0) (abyssfsInit fun _ => 0) [slash]
      nameA.bytes).2.1 fs [file] =
        (ReuseCall.create a).apply (AbyssState.init (Heap.mk 0) fun _ => 0) := by
    rw [ha, hfs, hfile]
    simp only [ReuseCall.apply, AbyssState.init, abyssfsCreate_init]
    rfl
  rw [← hfs] at hinv hnode hbitmap
  have hroom : RootCall.Room (abyssfsInit fun _ => 0) nameA.bytes.length :=
    (rootInv_init fun _ => 0).kept.room_iff.2 (by decide)
  have hfits : (ReuseCall.create a).Fits (AbyssState.init (Heap.mk 0) fun _ => 0).fs := by
    rintro call hcall
    rw [← Option.some.inj hcall, ha]
    exact fun _ => hroom
  have hspares : (ReuseCall.create a).Spares ∧ (ReuseCall.unlink a).Spares := by
    constructor
    · rintro call hcall
      rw [← Option.some.inj hcall, ha, RootCall.Spares]
      decide
    · rintro call hcall
      rw [← Option.some.inj hcall, ha, RootCall.Spares]
      decide
  have hwrite : ∀ h₀ : Heap,
    AbyssState.mk h₀ (abyssfsWrite fs file (List.replicate 4096 c)).2 [file] =
      (ReuseCall.write 0 (List.replicate 4096 c)).apply (AbyssState.mk h₀ fs [file]) := fun _ => rfl
  have hrun := (((Lts.Run.nil (M := reuseLts.only fun _ call _ => call.Spares)).snoc
    ⟨⟨hfits, hcreate⟩, hspares.1⟩).snoc
      ⟨⟨fun call hcall => (by cases hcall), hwrite _⟩, fun call hcall => (by cases hcall)⟩).snoc
        (a := ReuseCall.unlink a)
          ⟨⟨fun call hcall => (by rw [← Option.some.inj hcall]; trivial), rfl⟩, hspares.2⟩
  rw [ha] at hrun
  exact ⟨_, hrun, recycled_block hinv (by rw [hfile]) hnode hbitmap rfl⟩

/-- In the state after it, `abyssfs_mkdir` has an inode and a block. -/
theorem recycling_mkdir {s : AbyssState} (hkept : RootKept s.fs [])
    (hmode : (s.fs.inodes 2).mode = 0) (hblock : (allocBlock s.fs).1 = 10) :
    (abyssfsMkdir s.fs [slash] nameA.bytes).1 = 0 := by
  have hi : (allocInode s.fs).1 ≠ 0 := allocInode_of_free (i := 2) (by decide) (by decide) hmode
  have hb : (allocBlock (allocInode s.fs).2).1 ≠ 0 := by
    rw [allocBlock_congr (allocInode_bitmap s.fs), hblock]
    decide
  exact hkept.mkdir_zero nameA (by decide) hi hb

/-- **A phantom entry**: a directory that is given the block shows what the file left there. -/
theorem phantom_entry : ∃ s, reuseLts.Run (AbyssState.init (Heap.mk 0) fun _ => 0) (recycling 1) s ∧
    (abyssfsMkdir s.fs [slash] nameA.bytes).1 = 0 ∧ (∀ e ∈ rootEntries s.fs, e.name ≠ nameA.bytes) ∧
    ¬ NewDirEmpty (abyssfsMkdir s.fs [slash] nameA.bytes).2 nameA (allocInode s.fs).1 := by
  obtain ⟨s, hrun, hkept, hmode, hblock, hbyte⟩ := recycling_run 1
  have hok := recycling_mkdir hkept hmode hblock
  refine ⟨s, hrun.of_only, hok, by rw [hkept.dir.rootEntries_eq]; simp, ?_⟩
  rw [hkept.newDirEmpty_iff nameA (by decide) (by simp) hok, staleLength, hblock, recLen,
    Nat.add_assoc, hbyte]
  decide

/-- A directory that is given the block of a file of zeros is empty. -/
theorem new_directory_empty_iff_zeros : ∃ s,
    reuseLts.Run (AbyssState.init (Heap.mk 0) fun _ => 0) (recycling 0) s ∧
    NewDirEmpty (abyssfsMkdir s.fs [slash] nameA.bytes).2 nameA (allocInode s.fs).1 := by
  obtain ⟨s, hrun, hkept, hmode, hblock, hbyte⟩ := recycling_run 0
  have hok := recycling_mkdir hkept hmode hblock
  have hclean : staleLength s.fs = 0 := by
    rw [staleLength, hblock, recLen, Nat.add_assoc, hbyte]
    rfl
  have hroom : RootCall.Room s.fs nameA.bytes.length := hkept.room_iff.2 (by decide)
  have hnone : ∀ e ∈ rootEntries s.fs, e.name ≠ nameA.bytes := by
    rw [hkept.dir.rootEntries_eq]
    simp
  exact ⟨s, hrun.of_only, (new_directory_empty_iff hrun nameA hroom hnone hok).2 hclean⟩

end OsArm
