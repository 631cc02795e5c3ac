import OsArm.Abyss.Appending
import OsArm.Abyss.Terminated

/-!
# Reads of AbyssFS and the blocks of the files

`abyssfs_write` stores a buffer in the one block of its file and adds what it stored to the size;
`abyssfs_read` goes by the size.

* `FilesFit` — no file is larger than its block.
* `FileCall.Fits` — the writes after which the file still fits, and the reads whose end can be
  computed.
* `reads_stay_iff` — the files fit and every read stays in the block of its file, all along a run,
  if and only if all calls of the run are such calls; `second_write_outgrows` is a run of three
  calls that are not.
-/

namespace OsArm

/-! ## The calls -/

/-- A call through AbyssFS; `write k` and `read k` go through the handle returned as the `k`-th. -/
inductive FileCall
  | create (cwd path : Str)
  | write (k : Nat) (buf : List UInt8)
  | read (k : Nat) (count : UInt64)

namespace FileCall

/-- The state after a call. -/
def apply (s : AbyssState) : FileCall → AbyssState
  | create cwd path =>
    let r := abyssfsCreate s.heap s.fs cwd path
    { heap := r.2.1, fs := r.2.2, handles := s.handles ++ r.1.toList }
  | write k buf =>
    match s.handles[k]? with
    | none => s
    | some file => { s with fs := (abyssfsWrite s.fs file buf).2 }
  | read k count =>
    match s.handles[k]? with
    | none => s
    | some file => { s with handles := s.handles.set k (abyssfsRead s.fs file count.toNat).2 }

end FileCall

/-- The calls, in any order. -/
def fileLts : Lts AbyssState FileCall where
  step s call t := t = call.apply s

/-- A live regular file. -/
def Regular (fs : AbyssFs) (n : Nat) : Prop :=
  (fs.inodes n).mode ≠ 0 ∧ (fs.inodes n).mode &&& 0x4000 = 0

/-- **No file is larger than its block.** -/
def FilesFit (fs : AbyssFs) : Prop := ∀ n, Regular fs n → (fs.inodes n).size ≤ blockSize

/-- **The read stays in the block of its file**: it copies `out.length` bytes from the position
on. -/
def ReadInside (fs : AbyssFs) (file : VfsFile) (count : Nat) : Prop :=
  ∀ out, (abyssfsRead fs file count).1 = some out → out ≠ [] →
    firstDataBlock ≤ (fs.inodes file.privateData).blocks ∧
      (fs.inodes file.privateData).blocks < totalBlocks ∧ file.fPos + out.length ≤ blockSize

/-- After the call the files fit, and if it was a read, it stayed inside. -/
def KeepsToBlocks (s : AbyssState) (call : FileCall) (t : AbyssState) : Prop :=
  FilesFit t.fs ∧ ∀ k count file, call = .read k count → s.handles[k]? = some file →
    ReadInside s.fs file count.toNat

/-- `write_to_blocks` has a block to store into. -/
def HasSpace (fs : AbyssFs) (n : Nat) : Prop :=
  (fs.inodes n).blocks ≠ 0 ∨ (allocBlock fs).1 ≠ 0

/-- **The condition.**  What a write adds to the size leaves it within the block, and a read that
is not at the end of the file does not leave the address space. -/
def FileCall.Fits (s : AbyssState) : FileCall → Prop
  | create _ _ => True
  | write k buf => ∀ file, s.handles[k]? = some file → HasSpace s.fs file.privateData →
      (s.fs.inodes file.privateData).size + min buf.length blockSize ≤ blockSize
  | read k count => ∀ file, s.handles[k]? = some file →
      file.fPos < (s.fs.inodes file.privateData).size → file.fPos + count.toNat < 2 ^ 64

/-! ## One call -/

/-- What a write does to the inode of its file. -/
theorem abyssfsWrite_inode {fs : AbyssFs} {file : VfsFile} (hn : file.privateData < maxInodes)
    (buf : List UInt8) (hspace : HasSpace fs file.privateData) :
    (abyssfsWrite fs file buf).2.inodes file.privateData =
      { mode := (fs.inodes file.privateData).mode
        size := if 0 < min buf.length blockSize then
            ((fs.inodes file.privateData).size + min buf.length blockSize) % 2 ^ 32
          else (fs.inodes file.privateData).size
        blocks := if (fs.inodes file.privateData).blocks = 0 then (allocBlock fs).1
          else (fs.inodes file.privateData).blocks } := by
  have hmin : (if buf.length > blockSize then blockSize else buf.length) =
      min buf.length blockSize := by
    split <;> omega
  simp only [abyssfsWrite, getInode_of_lt hn, writeToBlocks, hmin]
  by_cases hb : (fs.inodes file.privateData).blocks = 0
  · have hne : (allocBlock fs).1 ≠ 0 := hspace.resolve_left (not_not.2 hb)
    simp only [if_pos hb, if_neg hne]
    split <;> simp [storeBlock_inodes]
  · simp only [if_neg hb]
    split <;> simp [storeBlock_inodes]

/-- Without a block nothing happens. -/
theorem abyssfsWrite_of_no_space {fs : AbyssFs} {file : VfsFile} (buf : List UInt8)
    (hspace : ¬ HasSpace fs file.privateData) : (abyssfsWrite fs file buf).2 = fs := by
  obtain ⟨hb, hzero⟩ := not_or.1 hspace
  rw [not_not] at hb hzero
  unfold abyssfsWrite
  cases getInode fs file.privateData with
  | none => rfl
  | some inode =>
    simp only [writeToBlocks, if_pos hb, allocBlock_eq_of_zero hzero]
    rfl

/-- A write touches no other inode. -/
theorem abyssfsWrite_of_ne {fs : AbyssFs} {file : VfsFile} (buf : List UInt8) {k : Nat}
    (hk : k ≠ file.privateData) : (abyssfsWrite fs file buf).2.inodes k = fs.inodes k := by
  rcases abyssfsWrite_spec fs file buf with heq | ⟨fs₁, b, node, hblock, -, -, -, heq⟩
  · rw [heq]
  · have hinodes : fs₁.inodes = fs.inodes := by
      rcases hblock with ⟨rfl, -⟩ | ⟨-, rfl, -⟩
      · rfl
      · exact (allocBlock_frame fs).2
    rw [heq, storeBlock_inodes, setInode_of_ne hk, hinodes]

/-- What a read delivers. -/
theorem abyssfsRead_length {fs : AbyssFs} {file : VfsFile} (hn : file.privateData < maxInodes)
    (count : Nat) {out : List UInt8} (hout : (abyssfsRead fs file count).1 = some out) :
    if file.fPos ≥ (fs.inodes file.privateData).size then out = []
    else out.length = if (file.fPos + count) % 2 ^ 64 > (fs.inodes file.privateData).size then
      (fs.inodes file.privateData).size - file.fPos else count := by
  simp only [abyssfsRead, getInode_of_lt hn] at hout
  split at hout
  · next hend =>
    rw [if_pos hend]
    exact (Option.some.inj hout).symm
  · next hend =>
    rw [if_neg hend, ← Option.some.inj hout]
    simp [memcpyFrom]

/-- A read leaves the handle on its inode. -/
theorem abyssfsRead_privateData (fs : AbyssFs) (file : VfsFile) (count : Nat) :
    (abyssfsRead fs file count).2.privateData = file.privateData := by
  unfold abyssfsRead
  split
  · rfl
  · dsimp only
    split <;> rfl

/-! ## The invariant -/

/-- The handles are on regular files, and these have a block of their own to be read from, or
nothing in them. -/
structure FilesInv (s : AbyssState) : Prop where
  handles : ∀ file ∈ s.handles, file.privateData < maxInodes ∧ Regular s.fs file.privateData
  blocks : ∀ n, Regular s.fs n → (s.fs.inodes n).blocks = 0 ∧ (s.fs.inodes n).size = 0 ∨
    firstDataBlock ≤ (s.fs.inodes n).blocks ∧ (s.fs.inodes n).blocks < totalBlocks
  fit : FilesFit s.fs

namespace FilesInv

variable {s t : AbyssState}

theorem init (heap : Heap) (m : ByteMem) : FilesInv (AbyssState.init heap m) := by
  have hnone : ∀ n, ¬ Regular (abyssfsInit m) n := by
    intro n hn
    by_cases hroot : n = 1
    · subst hroot
      exact absurd hn.2 (show ¬ (0x4000 : BitVec 32) &&& 0x4000 = 0 by decide)
    · have hnode : (abyssfsInit m).inodes n = Inode.zero := if_neg hroot
      exact hn.1 (by rw [hnode]; rfl)
  exact ⟨fun file hfile => absurd hfile List.not_mem_nil, fun n hn => absurd hn (hnone n),
    fun n hn => absurd hn (hnone n)⟩

/-- **Creating.**  The new file is empty. -/
theorem create (h : FilesInv s) (cwd path : Str) :
    FilesInv ((FileCall.create cwd path).apply s) := by
  set u := (FileCall.create cwd path).apply s with hu
  have hinodes : u.fs.inodes = (allocInode s.fs).2.inodes := abyssfsCreate_inodes _ _ _ _
  have hnode : ∀ n, u.fs.inodes n = s.fs.inodes n ∨
      (s.fs.inodes n).mode = 0 ∧ u.fs.inodes n = { Inode.zero with mode := 0x1FF } := by
    intro n
    rw [hinodes]
    rcases allocInode_spec s.fs with hnone | ⟨i, hi, -, -, hfree⟩
    · exact Or.inl (by rw [hnone])
    · rw [hi]
      by_cases hni : n = i
      · subst hni
        exact Or.inr ⟨hfree, setInode_self⟩
      · exact Or.inl (setInode_of_ne hni)
  have hkept : ∀ n, Regular s.fs n → Regular u.fs n := by
    intro n hn
    rcases hnode n with hsame | ⟨hfree, -⟩
    · rwa [Regular, hsame]
    · exact absurd hfree hn.1
  refine ⟨?_, ?_, ?_⟩
  · intro file hfile
    rcases List.mem_append.1 hfile with hfile | hfile
    · exact ⟨(h.handles file hfile).1, hkept _ (h.handles file hfile).2⟩
    · obtain ⟨-, hlt, hfresh⟩ := abyssfsCreate_fresh (Option.mem_toList.1 hfile)
      refine ⟨hlt, ?_⟩
      rw [Regular, show u.fs.inodes file.privateData = _ from hfresh]
      exact ⟨by decide, by decide⟩
  · intro n hn
    rcases hnode n with hsame | ⟨-, hfresh⟩
    · rw [Regular, hsame] at hn
      rw [hsame]
      exact h.blocks n hn
    · rw [hfresh]
      exact Or.inl ⟨rfl, rfl⟩
  · intro n hn
    rcases hnode n with hsame | ⟨-, hfresh⟩
    · rw [Regular, hsame] at hn
      rw [hsame]
      exact h.fit n hn
    · rw [hfresh]
      exact Nat.zero_le _

/-- A state that differs in the size and the block of one regular file. -/
theorem update (h : FilesInv s) {n : Nat} {fs : AbyssFs}
    (hmode : (fs.inodes n).mode = (s.fs.inodes n).mode)
    (hne : ∀ k, k ≠ n → fs.inodes k = s.fs.inodes k)
    (hblocks : firstDataBlock ≤ (fs.inodes n).blocks ∧ (fs.inodes n).blocks < totalBlocks)
    (hfit : (fs.inodes n).size ≤ blockSize) : FilesInv { s with fs := fs } := by
  have hregs : ∀ k, Regular fs k ↔ Regular s.fs k := by
    intro k
    by_cases hk : k = n
    · rw [hk, Regular, Regular, hmode]
    · rw [Regular, Regular, hne k hk]
  refine ⟨fun file hfile => ⟨(h.handles file hfile).1, (hregs _).2 (h.handles file hfile).2⟩,
    ?_, ?_⟩
  · intro k hk
    by_cases hkn : k = n
    · rw [hkn]
      exact Or.inr hblocks
    · simp only
      rw [hne k hkn]
      exact h.blocks k ((hregs k).1 hk)
  · intro k hk
    by_cases hkn : k = n
    · rw [hkn]
      exact hfit
    · simp only
      rw [hne k hkn]
      exact h.fit k ((hregs k).1 hk)

/-- **Writing.**  The file still fits if the condition is met, and outgrows its block if not. -/
theorem write (h : FilesInv s) {k : Nat} {file : VfsFile} (hfile : s.handles[k]? = some file)
    (buf : List UInt8) :
    (HasSpace s.fs file.privateData →
      (s.fs.inodes file.privateData).size + min buf.length blockSize ≤ blockSize) ∧
        FilesInv { s with fs := (abyssfsWrite s.fs file buf).2 } ∨
      ¬ (HasSpace s.fs file.privateData →
        (s.fs.inodes file.privateData).size + min buf.length blockSize ≤ blockSize) ∧
        ¬ FilesFit (abyssfsWrite s.fs file buf).2 := by
  obtain ⟨hn, hreg⟩ := h.handles file (List.mem_of_getElem? hfile)
  have hsize := h.fit _ hreg
  by_cases hspace : HasSpace s.fs file.privateData
  · have hnode := abyssfsWrite_inode hn buf hspace
    obtain ⟨node, hnode'⟩ : ∃ node, node = (abyssfsWrite s.fs file buf).2.inodes file.privateData :=
      ⟨_, rfl⟩
    rw [← hnode'] at hnode
    have hgrown : node.size = (s.fs.inodes file.privateData).size + min buf.length blockSize := by
      have hlt : (s.fs.inodes file.privateData).size + min buf.length blockSize < 2 ^ 32 := by
        rw [blockSize] at hsize ⊢
        omega
      rw [hnode]
      by_cases hpos : 0 < min buf.length blockSize
      · simp only [if_pos hpos, Nat.mod_eq_of_lt hlt]
      · simp only [if_neg hpos]
        omega
    have hmode : node.mode = (s.fs.inodes file.privateData).mode := by rw [hnode]
    by_cases hfits : (s.fs.inodes file.privateData).size + min buf.length blockSize ≤ blockSize
    · refine Or.inl ⟨fun _ => hfits,
        h.update (by rw [← hnode', hmode]) (fun j hj => abyssfsWrite_of_ne buf hj) ?_
        (by rw [← hnode']; exact le_of_eq_of_le hgrown hfits)⟩
      have hblocks : node.blocks = if (s.fs.inodes file.privateData).blocks = 0 then
          (allocBlock s.fs).1 else (s.fs.inodes file.privateData).blocks := by rw [hnode]
      rw [← hnode', hblocks]
      split
      · next hb =>
        rcases allocBlock_spec s.fs with hnone | ⟨b, hb', hlow, hhigh, -⟩
        · exact absurd (by rw [hnone]) (hspace.resolve_left (not_not.2 hb))
        · rw [hb']
          exact ⟨hlow, hhigh⟩
      · next hb =>
        exact (h.blocks _ hreg).resolve_left fun hnone => hb hnone.1
    · refine Or.inr ⟨fun hall => hfits (hall hspace), fun hfit => hfits ?_⟩
      rw [← hgrown, hnode']
      refine hfit _ ?_
      rw [Regular, ← hnode', hmode]
      exact hreg
  · refine Or.inl ⟨fun hall => absurd hall hspace, ?_⟩
    rw [abyssfsWrite_of_no_space buf hspace]
    exact h

/-- **Reading.**  The read stays inside if and only if its end can be computed. -/
theorem readInside_iff (h : FilesInv s) {k : Nat} {file : VfsFile}
    (hfile : s.handles[k]? = some file) {count : Nat} (hcount : count < 2 ^ 64) :
    ReadInside s.fs file count ↔
      (file.fPos < (s.fs.inodes file.privateData).size → file.fPos + count < 2 ^ 64) := by
  obtain ⟨hn, hreg⟩ := h.handles file (List.mem_of_getElem? hfile)
  have hsize := h.fit _ hreg
  constructor
  · intro hinside hlt
    by_contra hwrap
    obtain ⟨out, hout⟩ : ∃ out, (abyssfsRead s.fs file count).1 = some out := by
      simp only [abyssfsRead, getInode_of_lt hn]
      split <;> exact ⟨_, rfl⟩
    have hlen := abyssfsRead_length hn count hout
    simp only [blockSize] at hsize
    rw [if_neg (by omega), if_neg (by omega)] at hlen
    have hne : out ≠ [] := by
      rintro rfl
      rw [List.length_nil] at hlen
      omega
    have hend := (hinside out hout hne).2.2
    simp only [blockSize] at hend
    omega
  · intro hfits out hout hne
    have hlen := abyssfsRead_length hn count hout
    split at hlen
    · exact absurd hlen hne
    · next hlt =>
      have hsum := hfits (Nat.not_le.1 hlt)
      rw [Nat.mod_eq_of_lt hsum] at hlen
      have hblocks := (h.blocks _ hreg).resolve_left fun hnone =>
        hlt (by rw [hnone.2]; exact Nat.zero_le _)
      refine ⟨hblocks.1, hblocks.2, ?_⟩
      split at hlen <;> omega

/-- **One call**, from a state in which all is well. -/
theorem step (h : FilesInv s) (call : FileCall) :
    (call.Fits s ↔ KeepsToBlocks s call (call.apply s)) ∧
    (call.Fits s → FilesInv (call.apply s)) := by
  cases call with
  | create cwd path =>
    have hinv := h.create cwd path
    exact ⟨⟨fun _ => ⟨hinv.fit, fun k count file hcall => by cases hcall⟩, fun _ => trivial⟩,
      fun _ => hinv⟩
  | write k buf =>
    have hnoread : ∀ j count file, FileCall.write k buf = .read j count →
        s.handles[j]? = some file → ReadInside s.fs file count.toNat :=
      fun j count file hcall => by cases hcall
    cases hfile : s.handles[k]? with
    | none =>
      have hsame : (FileCall.write k buf).apply s = s := by simp only [FileCall.apply, hfile]
      rw [hsame]
      exact ⟨⟨fun _ => ⟨h.fit, hnoread⟩, fun _ file hsome => by rw [hfile] at hsome; cases hsome⟩,
        fun _ => h⟩
    | some file =>
      have hfs : (FileCall.write k buf).apply s =
          { s with fs := (abyssfsWrite s.fs file buf).2 } := by
        simp only [FileCall.apply, hfile]
      have hfits : (FileCall.write k buf).Fits s ↔ (HasSpace s.fs file.privateData →
          (s.fs.inodes file.privateData).size + min buf.length blockSize ≤ blockSize) :=
        ⟨fun hall => hall file hfile, fun hone f hf => by rw [hfile] at hf; cases hf; exact hone⟩
      rw [hfs, hfits]
      rcases h.write hfile buf with ⟨hfits, hinv⟩ | ⟨hfits, hout⟩
      · exact ⟨⟨fun _ => ⟨hinv.fit, hnoread⟩, fun _ => hfits⟩, fun _ => hinv⟩
      · exact ⟨⟨fun hall => absurd hall hfits, fun hkeep => absurd hkeep.1 hout⟩,
          fun hall => absurd hall hfits⟩
  | read k count =>
    cases hfile : s.handles[k]? with
    | none =>
      have hsame : (FileCall.read k count).apply s = s := by simp only [FileCall.apply, hfile]
      rw [hsame]
      refine ⟨⟨fun _ => ⟨h.fit, ?_⟩, ?_⟩, fun _ => h⟩
      · intro j c file hcall hsome
        cases hcall
        rw [hfile] at hsome
        cases hsome
      · intro _ file hsome
        rw [hfile] at hsome
        cases hsome
    | some file =>
      have hread : (FileCall.read k count).apply s =
          { s with handles := s.handles.set k (abyssfsRead s.fs file count.toNat).2 } := by
        simp only [FileCall.apply, hfile]
      have hinv : FilesInv ((FileCall.read k count).apply s) := by
        rw [hread]
        refine ⟨?_, h.blocks, h.fit⟩
        intro f hf
        rcases List.mem_or_eq_of_mem_set hf with hf | rfl
        · exact h.handles f hf
        · rw [abyssfsRead_privateData]
          exact h.handles file (List.mem_of_getElem? hfile)
      have hiff : ReadInside s.fs file count.toNat ↔ _ := h.readInside_iff hfile count.toNat_lt
      refine ⟨⟨fun hfits => ⟨hinv.fit, ?_⟩, ?_⟩, fun _ => hinv⟩
      · intro j c f hcall hsome
        cases hcall
        rw [hfile] at hsome
        cases hsome
        exact hiff.2 (hfits file hfile)
      · intro hkeep f hsome
        rw [hfile] at hsome
        cases hsome
        exact hiff.1 (hkeep.2 k count file rfl hfile)

end FilesInv

/-! ## The runs -/

/-- **Reads stay in the blocks of the files**, and no file is larger than its block, all along a
run, if and only if every write of it leaves its file within the block and every read of it has
an end. -/
theorem reads_stay_iff (heap : Heap) (m : ByteMem) (tr : List FileCall) (s : AbyssState) :
    (fileLts.only KeepsToBlocks).Run (AbyssState.init heap m) tr s ↔
      (fileLts.only fun s call _ => call.Fits s).Run (AbyssState.init heap m) tr s := by
  constructor
  · intro hrun
    refine (hrun.only (I := FilesInv) (fun t call u ht hstep hkeep => ?_) (.init heap m)).1
    rw [show u = _ from hstep] at hkeep ⊢
    have hfits := (ht.step call).1.2 hkeep
    exact ⟨hfits, (ht.step call).2 hfits⟩
  · intro hrun
    refine (hrun.only (I := FilesInv) (fun t call u ht hstep hfits => ?_) (.init heap m)).1
    rw [show u = _ from hstep]
    exact ⟨(ht.step call).1.1 hfits, (ht.step call).2 hfits⟩

/-- What two writes make of a new file: 4096 bytes and one more. -/
theorem abyssfsWrite_twice {fs : AbyssFs} {file : VfsFile} (hn : file.privateData < maxInodes)
    (hnode : fs.inodes file.privateData = { mode := 0x1FF, size := 0, blocks := 0 })
    (hb : (allocBlock fs).1 ≠ 0) :
    (abyssfsWrite (abyssfsWrite fs file (List.replicate 4096 1)).2 file [2]).2.inodes
      file.privateData = { mode := 0x1FF, size := 4097, blocks := (allocBlock fs).1 } := by
  have hfirst : (abyssfsWrite fs file (List.replicate 4096 1)).2.inodes file.privateData =
      { mode := 0x1FF, size := 4096, blocks := (allocBlock fs).1 } := by
    rw [abyssfsWrite_inode hn _ (Or.inr hb), hnode, List.length_replicate]
    rfl
  rw [abyssfsWrite_inode hn _ (Or.inl (by rw [hfirst]; exact hb)), hfirst]
  simp only [if_neg hb]
  rfl

/-- **The second write makes the file larger than its block**: its size is 4097. -/
theorem second_write_outgrows : ∃ s t, fileLts.Run (AbyssState.init (Heap.mk 0) fun _ => 0)
      [.create [slash] nameA.bytes, .write 0 (List.replicate 4096 1)] s ∧
      fileLts.step s (.write 0 [2]) t ∧ Regular t.fs 2 ∧ (t.fs.inodes 2).size = 4097 ∧
      ¬ KeepsToBlocks s (.write 0 [2]) t := by
  obtain ⟨-, hn, hnode⟩ := abyssfsCreate_fresh abyssfsCreate_init
  have htwice := abyssfsWrite_twice hn hnode allocBlock_create_init
  set fs := (abyssfsCreate (Heap.mk 0) (abyssfsInit fun _ => 0) [slash] nameA.bytes).2.2 with hfs
  obtain ⟨file, hfile⟩ : ∃ file : VfsFile,
      file = { fOps := .abyssfs, privateData := 2, fPos := 0 } :=
    ⟨_, rfl⟩
  rw [← hfile] at htwice
  have hdata : file.privateData = 2 := by rw [hfile]
  rw [hdata] at htwice
  have hcreate : (FileCall.create [slash] nameA.bytes).apply
      (AbyssState.init (Heap.mk 0) fun _ => 0) =
      { heap := (abyssfsCreate (Heap.mk 0) (abyssfsInit fun _ => 0) [slash] nameA.bytes).2.1
        fs := fs
        handles := [file] } := by
    simp only [FileCall.apply, AbyssState.init, abyssfsCreate_init, hfile, hfs]
    rfl
  have hwrite : ∀ (heap : Heap) (fs : AbyssFs) (buf : List UInt8), (FileCall.write 0 buf).apply
      { heap := heap, fs := fs, handles := [file] } =
        { heap := heap, fs := (abyssfsWrite fs file buf).2, handles := [file] } := fun _ _ _ => rfl
  have hrun := ((Lts.Run.nil (M := fileLts)).snoc hcreate.symm).snoc
    (hwrite _ _ (List.replicate 4096 1)).symm
  have hreg : Regular
      (abyssfsWrite (abyssfsWrite fs file (List.replicate 4096 1)).2 file [2]).2 2 := by
    rw [Regular, htwice]
    exact ⟨by decide, by decide⟩
  refine ⟨_, _, hrun, (hwrite _ _ [2]).symm, hreg, congrArg Inode.size htwice, ?_⟩
  intro hkeep
  have hsize := hkeep.1 2 hreg
  rw [htwice] at hsize
  exact absurd hsize (by decide)

end OsArm
