import OsArm.Ram.Paths

/-!
# Reading whole files of RAMFS

`ramfs_read_file` copies up to the first NUL byte of the content; a handle is read up to `size`.
`ramfs_write` stores no terminator, and `ramfs_unlink` leaves the content of the slot behind.

* `readToEnd`, `ReadsTo`, `OpensTo` — reading a file through a handle.
* `ramfsReadFile_eq` — what `ramfs_read_file` delivers.
* `readsAgree_iff_endsAt` — the two agree about a file if and only if a 0 byte stands behind it.
* `FilesEnded` — that is so for every file in use.
* `ramfs_reads_agree` — it stays so in runs where every write that makes its file longer finds a 0
  byte behind the new end; after any other write the two reads disagree about the file.
* `stale_byte_read` — a run in which a byte of an unlinked file is read.
-/

namespace OsArm

/-! ## The two reads -/

/-- A handle read to its end, `chunk` bytes at a time; `none` when that takes more than `fuel`
calls. -/
def readToEnd (ram : RamFs) (chunk : Nat) : Nat → VfsFile → Option (List UInt8)
  | 0, _ => none
  | fuel + 1, file =>
    let r := ramfsRead ram file chunk
    if r.1 = [] then some [] else (readToEnd ram chunk fuel r.2).map (r.1 ++ ·)

/-- Reading the handle to its end gives `c`, whatever is asked for at a time. -/
def ReadsTo (ram : RamFs) (file : VfsFile) (c : List UInt8) : Prop :=
  ∀ chunk, 0 < chunk → chunk + maxContent < 2 ^ 64 →
    ∃ n, ∀ fuel, n ≤ fuel → readToEnd ram chunk fuel file = some c

/-- `ramfs_open` with memory for the handle, and then reading to the end, gives `c`. -/
def OpensTo (ram : RamFs) (path : Str) (c : List UInt8) : Prop :=
  ∀ heap, (kalloc heap sizeofVfsFile).isSome →
    ∃ file, (ramfsOpen heap ram path).1 = some file ∧ ReadsTo ram file c

/-- The comparison of `ramfs_read_file` from byte `j` on, `fuel` bytes at most. -/
def pathMatches (mem : ByteMem) : Nat → Nat → Str → Bool
  | 0, _, _ => true
  | _ + 1, j, [] => mem j = 0
  | fuel + 1, j, c :: cs => mem j = c ∧ (c = 0 ∨ pathMatches mem fuel (j + 1) cs)

/-- `ramfs_read_file`: the bytes of `out` that it counts, or `none` for -1. -/
def ramfsReadFile (ram : RamFs) (path : Str) (maxLen : Nat) : Option (List UInt8) :=
  ((List.range maxFiles).find? fun i =>
    (ram.files i).used ∧ pathMatches (ram.files i).mem maxPath 0 path).map fun i =>
      (ram.files i).mem.cstring maxLen contentOff

/-! ## Through a handle -/

section Handles

variable {ram : RamFs} {file : VfsFile} {c : List UInt8} {p : Str} {k : Nat}

/-- **Reading to the end** delivers the bytes from the position on. -/
theorem readToEnd_eq {chunk fuel : Nat} (hchunk : 0 < chunk) (hmax : chunk + maxContent < 2 ^ 64)
    (hsize : (ram.files file.privateData).size ≤ maxContent)
    (hpos : file.fPos ≤ (ram.files file.privateData).size)
    (hfuel : (ram.files file.privateData).size - file.fPos < fuel) :
    readToEnd ram chunk fuel file =
      some ((ram.files file.privateData).bytes.drop file.fPos) := by
  induction fuel generalizing file with
  | zero => omega
  | succ fuel ih =>
    rw [readToEnd, ramfsRead_eq hpos hsize (by omega)]
    have hbytes : (ram.files file.privateData).bytes.length =
        (ram.files file.privateData).size := by
      rw [RamfsFile.bytes, length_memcpyFrom]
    generalize hrest : (ram.files file.privateData).bytes.drop file.fPos = rest
    have hlen : rest.length = (ram.files file.privateData).size - file.fPos := by
      rw [← hrest, List.length_drop, hbytes]
    have htake : (rest.take chunk).length = min chunk rest.length := List.length_take
    dsimp only
    split
    · next hnil =>
      rw [hnil, List.length_nil] at htake
      have hzero : rest.length = 0 := by omega
      rw [List.length_eq_zero_iff.1 hzero]
    · next hne =>
      have hpos' := List.length_pos_iff.2 hne
      have hnext : readToEnd ram chunk fuel
          { file with fPos := file.fPos + (rest.take chunk).length } =
          some ((ram.files file.privateData).bytes.drop (file.fPos + (rest.take chunk).length)) :=
        ih hsize (by dsimp only; omega) (by dsimp only; omega)
      rw [hnext, Option.map_some, ← List.drop_drop, hrest, htake]
      by_cases hc : chunk ≤ rest.length
      · rw [Nat.min_eq_left hc, List.take_append_drop]
      · rw [Nat.min_eq_right (by omega), List.drop_length, List.append_nil,
          List.take_of_length_le (by omega)]

/-- A handle at the start of its file is read to the bytes of the file. -/
theorem readsTo_bytes (hsize : (ram.files file.privateData).size ≤ maxContent)
    (hpos : file.fPos = 0) : ReadsTo ram file (ram.files file.privateData).bytes := by
  intro chunk hchunk hmax
  refine ⟨(ram.files file.privateData).size + 1, ?_⟩
  intro fuel hfuel
  rw [readToEnd_eq hchunk hmax hsize (by omega) (by omega), hpos, List.drop_zero]

/-- Opening the path of a file and reading to the end gives its bytes. -/
theorem opensTo_bytes (hfound : findUsed ram p = some k) (hsize : (ram.files k).size ≤ maxContent) :
    OpensTo ram p (ram.files k).bytes := by
  intro heap hheap
  obtain ⟨r, hr⟩ := Option.isSome_iff_exists.1 hheap
  refine ⟨{ fOps := .ramfs, privateData := k, fPos := 0 }, ?_, readsTo_bytes hsize rfl⟩
  simp only [ramfsOpen, hfound, hr]

/-- There is only one thing a path can be read to. -/
theorem OpensTo.unique {d : List UInt8} (hc : OpensTo ram p c) (hd : OpensTo ram p d) : c = d := by
  obtain ⟨file, hfile, hread⟩ := hc (Heap.mk 0) (by decide)
  obtain ⟨file', hfile', hread'⟩ := hd (Heap.mk 0) (by decide)
  rw [hfile, Option.some.injEq] at hfile'
  subst hfile'
  obtain ⟨n, hn⟩ := hread 1 (by decide) (by decide)
  obtain ⟨m, hm⟩ := hread' 1 (by decide) (by decide)
  have heq := (hn (max n m) (Nat.le_max_left n m)).symm.trans (hm (max n m) (Nat.le_max_right n m))
  exact Option.some.inj heq

end Handles

/-! ## Through `ramfs_read_file` -/

section ReadFile

variable {ram : RamFs} {mem : ByteMem} {p : Str} {k : Nat}

/-- The comparison is that of `strcmp` for paths that fit. -/
theorem pathMatches_iff {fuel j : Nat} (hp : NulFree p) (hlen : p.length < fuel) :
    pathMatches mem fuel j p = true ↔ mem.CStringAt j p := by
  induction p generalizing fuel j with
  | nil =>
    obtain ⟨fuel, rfl⟩ : ∃ f, fuel = f + 1 := ⟨fuel - 1, by omega⟩
    rw [pathMatches, ByteMem.cstringAt_nil, decide_eq_true_eq]
  | cons c cs ih =>
    obtain ⟨fuel, rfl⟩ : ∃ f, fuel = f + 1 := ⟨fuel - 1, by omega⟩
    have hc : c ≠ 0 := fun h => hp (by simp [h])
    have hcs : NulFree cs := fun h => hp (List.mem_cons_of_mem _ h)
    rw [List.length_cons] at hlen
    rw [pathMatches, ByteMem.cstringAt_cons, decide_eq_true_eq, or_iff_right hc,
      ih hcs (by omega)]

/-- **`ramfs_read_file`** reads the slot that `ramfs_open` would open. -/
theorem ramfsReadFile_eq (hp : NulFree p) (hlen : p.length < maxPath) (maxLen : Nat) :
    ramfsReadFile ram p maxLen =
      (findUsed ram p).map fun i => (ram.files i).mem.cstring maxLen contentOff := by
  have hscan : (fun i => decide ((ram.files i).used ∧
      pathMatches (ram.files i).mem maxPath 0 p)) =
      fun i => decide ((ram.files i).used ∧ strcmp (ram.files i).mem 0 p = 0) := by
    funext i
    refine decide_eq_decide.2 (and_congr_right fun _ => ?_)
    rw [strcmp_eq_zero_iff hp]
    exact pathMatches_iff hp hlen
  unfold ramfsReadFile findUsed
  rw [hscan]

/-- Reading on behind bytes without a NUL. -/
theorem cstring_add {a n : Nat} (m : Nat) (hnul : NulFree (memcpyFrom mem a n)) :
    mem.cstring (n + m) a = memcpyFrom mem a n ++ mem.cstring m (a + n) := by
  induction n generalizing a with
  | zero => simp [memcpyFrom]
  | succ n ih =>
    have hcons : memcpyFrom mem a (n + 1) = mem a :: memcpyFrom mem (a + 1) n := by
      simp [memcpyFrom, List.range_succ_eq_map, Function.comp_def, Nat.add_comm, Nat.add_left_comm]
    rw [hcons] at hnul ⊢
    have hne : mem a ≠ 0 := fun h => hnul (by simp [h])
    have hrest : NulFree (memcpyFrom mem (a + 1) n) := fun h => hnul (List.mem_cons_of_mem _ h)
    rw [Nat.add_right_comm, ByteMem.cstring, if_neg hne, ih hrest, List.cons_append,
      Nat.add_assoc, Nat.add_comm 1 n]

end ReadFile

/-! ## The two agree -/

/-- `k` is the only slot used for the path. -/
structure NamesOnly (ram : RamFs) (p : Str) (k : Nat) : Prop where
  nul_free : NulFree p
  length_lt : p.length < maxPath
  lt : k < maxFiles
  used : (ram.files k).used = true
  path : (ram.files k).mem.CStringAt 0 p
  only : ∀ j < maxFiles, (ram.files j).used = true → (ram.files j).mem.CStringAt 0 p → j = k

/-- **The two reads agree** about the file of the path, however long `out` is, if the file fits. -/
def ReadsAgree (ram : RamFs) (p : Str) (k : Nat) : Prop :=
  ∀ maxLen, (ram.files k).size ≤ maxLen → maxLen < 2 ^ 31 →
    ∃ c, ramfsReadFile ram p maxLen = some c ∧ OpensTo ram p c

/-- A 0 byte stands behind the bytes of the file. -/
def EndsAt (f : RamfsFile) : Prop := f.mem (contentOff + f.size) = 0

section Agree

variable {ram : RamFs} {p : Str} {k : Nat}

theorem NamesOnly.findUsed_eq (h : NamesOnly ram p k) : findUsed ram p = some k := by
  cases hfind : findUsed ram p with
  | none => exact absurd h.path ((findUsed_eq_none h.nul_free).1 hfind k h.lt h.used)
  | some j =>
    obtain ⟨hj, hused, hpath⟩ := findUsed_eq_some h.nul_free hfind
    rw [h.only j hj hused hpath]

/-- **The two reads agree if and only if the file ends with a 0 byte.** -/
theorem readsAgree_iff_endsAt (h : NamesOnly ram p k) (hnul : NulFree (ram.files k).bytes)
    (hsize : (ram.files k).size < maxContent) : ReadsAgree ram p k ↔ EndsAt (ram.files k) := by
  have hopens := opensTo_bytes h.findUsed_eq (Nat.le_of_lt hsize)
  have hread : ∀ m, ramfsReadFile ram p ((ram.files k).size + m) = some ((ram.files k).bytes ++
      (ram.files k).mem.cstring m (contentOff + (ram.files k).size)) := by
    intro m
    rw [ramfsReadFile_eq h.nul_free h.length_lt, h.findUsed_eq, Option.map_some, cstring_add m hnul]
    rfl
  constructor
  · intro hagree
    rw [maxContent] at hsize
    obtain ⟨c, hc, hc'⟩ := hagree ((ram.files k).size + 1) (Nat.le_succ _) (by omega)
    rw [hread 1, Option.some.injEq, hopens.unique hc', List.append_right_eq_self] at hc
    by_contra hne
    rw [EndsAt] at hne
    rw [ByteMem.cstring, if_neg hne] at hc
    cases hc
  · intro hend maxLen hle _
    rw [EndsAt] at hend
    obtain ⟨m, rfl⟩ : ∃ m, maxLen = (ram.files k).size + m := ⟨_, (Nat.add_sub_of_le hle).symm⟩
    refine ⟨(ram.files k).bytes, ?_, hopens⟩
    rw [hread m]
    cases m with
    | zero => rw [ByteMem.cstring, List.append_nil]
    | succ m => rw [ByteMem.cstring, if_pos hend, List.append_nil]

end Agree

/-! ## The calls -/

/-- A call on RAMFS; `write h` goes through the handle returned as the `h`-th. -/
inductive ContentCall
  | create (path : Str)
  | createFile (path content : Str)
  | unlink (path : Str)
  | openPath (path : Str)
  | write (h : Nat) (buf : List UInt8)

namespace ContentCall

/-- The state after a call. -/
def apply (s : RamState) : ContentCall → RamState
  | create path =>
    let r := ramfsCreate s.heap s.ram path
    { heap := r.2.1, ram := r.2.2, handles := s.handles ++ r.1.toList }
  | createFile path content => { s with ram := (ramfsCreateFile s.ram path content).2 }
  | unlink path => { s with ram := (ramfsUnlink s.ram path).2 }
  | openPath path =>
    let r := ramfsOpen s.heap s.ram path
    { s with heap := r.2, handles := s.handles ++ r.1.toList }
  | write h buf =>
    match s.handles[h]? with
    | none => s
    | some file =>
      let r := ramfsWrite s.ram file buf
      { s with ram := r.2.2, handles := s.handles.set h r.2.1 }

/-- Buffers are no longer than memory. -/
def Allowed : ContentCall → Prop
  | write _ buf => buf.length + maxContent < 2 ^ 64
  | _ => True

/-- **The condition**, for the file in slot `k`: if the slot is in use and the call is a write that
makes the file longer, a 0 byte stands where it will end. -/
def EndsFile (s : RamState) (k : Nat) : ContentCall → Prop
  | write h buf => ∀ file, s.handles[h]? = some file → file.privateData = k →
      (s.ram.files k).used = true → ∀ n, n = min buf.length (maxContent - file.fPos) → 0 < n →
        (s.ram.files k).size < file.fPos + n → file.fPos + n < maxContent →
          (s.ram.files k).mem (contentOff + (file.fPos + n)) = 0
  | _ => True

end ContentCall

/-- The calls, in any order. -/
def contentLts : Lts RamState ContentCall where
  step s a t := a.Allowed ∧ t = a.apply s

/-- After `ramfs_init`. -/
def RamState.init (heap : Heap) : RamState := { heap := heap, ram := ramfsInit, handles := [] }

/-! ## One call -/

section Calls

variable {ram : RamFs} {k : Nat}

/-- A slot as a call other than a write leaves it: as it was, or, if it is in use, a file that
ends with a 0 byte. -/
def SlotKept (f f' : RamfsFile) : Prop :=
  f' = f ∨ f'.size ≤ maxContent ∧ (f'.used = true → EndsAt f')

/-- A slot that is filled is the only one that changes. -/
theorem slotKept_setFile {i : Nat} {f : RamfsFile} (hsize : f.size ≤ maxContent)
    (hend : f.used = true → EndsAt f) (k : Nat) :
    SlotKept (ram.files k) ((ram.setFile i f).files k) := by
  by_cases hk : k = i
  · rw [hk, setFile_self]
    exact Or.inr ⟨hsize, hend⟩
  · rw [setFile_of_ne hk]
    exact Or.inl rfl

theorem ramfsCreate_slotKept (heap : Heap) (path : Str) (k : Nat) :
    SlotKept (ram.files k) ((ramfsCreate heap ram path).2.2.files k) := by
  unfold ramfsCreate
  cases findFree ram with
  | none => exact Or.inl rfl
  | some i =>
    dsimp only
    cases kalloc heap sizeofVfsFile with
    | none => exact slotKept_setFile (Nat.zero_le _) (fun h => by cases h) k
    | some r =>
      refine slotKept_setFile (Nat.zero_le _) (fun _ => ?_) k
      exact ByteMem.set_self (strcpy (ram.files i).mem 0 (ramfsFullPath path)) contentOff 0

theorem ramfsCreateFile_slotKept (path content : Str) (k : Nat) :
    SlotKept (ram.files k) ((ramfsCreateFile ram path content).2.files k) := by
  unfold ramfsCreateFile
  cases findFree ram with
  | none => exact Or.inl rfl
  | some i =>
    refine slotKept_setFile (by dsimp only; omega) (fun _ => ?_) k
    have hstring := (cstringAt_strcpy (copyBounded (ram.files i).mem 0 (maxPath - 1) path)
      contentOff (content.take (maxContent - 1))).2
    rw [← copyBounded_eq, List.length_take, Nat.min_comm] at hstring
    exact hstring

theorem ramfsUnlink_slotKept (path : Str) (k : Nat) :
    SlotKept (ram.files k) ((ramfsUnlink ram path).2.files k) := by
  unfold ramfsUnlink
  cases findUsed ram path with
  | none => exact Or.inl rfl
  | some i => exact slotKept_setFile (Nat.zero_le _) (fun h => by cases h) k

/-- What a write does to its slot, wherever its handle stands. -/
theorem ramfsWrite_slot (ram : RamFs) {file : VfsFile} {buf : List UInt8} {n : Nat}
    (hpos : file.fPos ≤ maxContent) (hbuf : buf.length + maxContent < 2 ^ 64)
    (hn : n = min buf.length (maxContent - file.fPos)) :
    (ramfsWrite ram file buf).2.1 = { file with fPos := file.fPos + n } ∧
      ∃ f : RamfsFile, (ramfsWrite ram file buf).2.2 = ram.setFile file.privateData f ∧
        f.used = (ram.files file.privateData).used ∧
        f.size = (if 0 < n then max (ram.files file.privateData).size (file.fPos + n)
          else (ram.files file.privateData).size) ∧
        ∀ x, x < contentOff + file.fPos ∨ contentOff + (file.fPos + n) ≤ x →
          f.mem x = (ram.files file.privateData).mem x := by
  have hclip : (if (file.fPos + buf.length) % 2 ^ 64 > maxContent then
      (2 ^ 64 + maxContent - file.fPos) % 2 ^ 64 else buf.length) = n := by
    rw [Nat.mod_eq_of_lt (by omega), hn]
    rw [maxContent] at hpos hbuf ⊢
    split <;> omega
  unfold ramfsWrite
  dsimp only
  rw [hclip]
  split
  · next hpos' =>
    have hmod : (file.fPos + n) % 2 ^ 64 = file.fPos + n := Nat.mod_eq_of_lt (by omega)
    rw [hmod]
    refine ⟨rfl, _, rfl, rfl, ?_, ?_⟩
    · dsimp only
      split <;> omega
    · intro x hx
      dsimp only
      rw [memcpyTo_eq, ByteMem.blit_outside (by omega)]
  · next hzero =>
    have hn0 : n = 0 := by omega
    subst hn0
    exact ⟨rfl, _, (setFile_files ram file.privateData).symm, rfl, rfl, fun _ _ => rfl⟩

end Calls

/-- **Every file in use ends with a 0 byte**, if it does not fill its slot, and no handle stands
behind the end of a slot. -/
structure FilesEnded (s : RamState) : Prop where
  size : ∀ k, (s.ram.files k).size ≤ maxContent
  pos : ∀ file ∈ s.handles, file.fPos ≤ maxContent
  endsAt : ∀ k, (s.ram.files k).used = true → (s.ram.files k).size < maxContent →
    EndsAt (s.ram.files k)

namespace FilesEnded

variable {s : RamState} {a : ContentCall}

theorem init (heap : Heap) : FilesEnded (RamState.init heap) where
  size _ := Nat.zero_le _
  pos file hfile := by cases hfile
  endsAt k hused := by cases hused

/-- **One call**: it leaves a file with a 0 byte behind it exactly if it meets the condition for
the file. -/
theorem endsAt_apply_iff (h : FilesEnded s) (ha : a.Allowed) {k : Nat}
    (hused : ((a.apply s).ram.files k).used = true)
    (hsize : ((a.apply s).ram.files k).size < maxContent) :
    EndsAt ((a.apply s).ram.files k) ↔ a.EndsFile s k := by
  have hkept : SlotKept (s.ram.files k) ((a.apply s).ram.files k) →
      EndsAt ((a.apply s).ram.files k) := by
    rintro (heq | ⟨-, hend⟩)
    · rw [heq] at hused hsize ⊢
      exact h.endsAt k hused hsize
    · exact hend hused
  cases a with
  | create path => exact iff_of_true (hkept (ramfsCreate_slotKept ..)) trivial
  | createFile path content => exact iff_of_true (hkept (ramfsCreateFile_slotKept ..)) trivial
  | unlink path => exact iff_of_true (hkept (ramfsUnlink_slotKept ..)) trivial
  | openPath path => exact iff_of_true (hkept (Or.inl rfl)) trivial
  | write i buf =>
    simp only [ContentCall.EndsFile]
    cases hfile : s.handles[i]? with
    | none =>
      have happly : (ContentCall.write i buf).apply s = s := by
        simp only [ContentCall.apply, hfile]
      rw [happly] at hkept ⊢
      exact iff_of_true (hkept (Or.inl rfl)) fun file hno => by cases hno
    | some file =>
      have hpos := h.pos file (List.mem_of_getElem? hfile)
      obtain ⟨n, hn⟩ : ∃ n, n = min buf.length (maxContent - file.fPos) := ⟨_, rfl⟩
      obtain ⟨-, f, hf, hfused, hfsize, hfmem⟩ := ramfsWrite_slot s.ram hpos ha hn
      have happly : ((ContentCall.write i buf).apply s).ram = s.ram.setFile file.privateData f := by
        simp only [ContentCall.apply, hfile, hf]
      rw [happly] at hkept hused hsize ⊢
      by_cases hk : k = file.privateData
      · subst hk
        rw [setFile_self] at hused hsize ⊢
        rw [hfused] at hused
        have hold := h.endsAt _ hused
        rw [EndsAt] at hold ⊢
        by_cases hlonger : 0 < n ∧ (s.ram.files file.privateData).size < file.fPos + n
        · -- the file ends where the write does
          rw [if_pos hlonger.1, Nat.max_eq_right (Nat.le_of_lt hlonger.2)] at hfsize
          rw [hfsize, hfmem _ (Or.inr (Nat.le_refl _))]
          rw [hfsize] at hsize
          refine ⟨?_, ?_⟩
          · intro hend g hg _ _ m hm _ _ _
            rw [Option.some.injEq] at hg
            subst hg
            rw [hm, ← hn]
            exact hend
          · intro hcond
            exact hcond file rfl rfl hused n hn hlonger.1 hlonger.2 hsize
        · -- the file ends where it did
          have hsame : f.size = (s.ram.files file.privateData).size := by
            rw [hfsize]
            split
            · next hpos' => exact Nat.max_eq_left (not_lt.1 fun hlt => hlonger ⟨hpos', hlt⟩)
            · rfl
          rw [hsame] at hsize ⊢
          refine iff_of_true ?_ fun g hg _ _ m hm hm0 hlt _ => ?_
          · rw [hfmem _ (by omega)]
            exact hold hsize
          · rw [Option.some.injEq] at hg
            subst hg
            rw [hm, ← hn] at hm0 hlt
            exact absurd ⟨hm0, hlt⟩ hlonger
      · have hsame : (s.ram.setFile file.privateData f).files k = s.ram.files k := setFile_of_ne hk
        refine iff_of_true (hkept (Or.inl hsame)) ?_
        intro g hg hgk _
        rw [Option.some.injEq] at hg
        subst hg
        exact absurd hgk.symm hk

/-- The sizes of the files and the positions of the handles stay within the slots. -/
theorem bounded_apply (h : FilesEnded s) (ha : a.Allowed) :
    (∀ k, ((a.apply s).ram.files k).size ≤ maxContent) ∧
      ∀ file ∈ (a.apply s).handles, file.fPos ≤ maxContent := by
  have hkept : ∀ {ram : RamFs}, (∀ k, SlotKept (s.ram.files k) (ram.files k)) →
      ∀ k, (ram.files k).size ≤ maxContent := by
    intro ram hslots k
    rcases hslots k with heq | ⟨hsize, -⟩
    · rw [heq]
      exact h.size k
    · exact hsize
  have hnew : ∀ {r : Option VfsFile}, (∀ file, r = some file → file.fPos = 0) →
      ∀ file ∈ s.handles ++ r.toList, file.fPos ≤ maxContent := by
    intro r hr file hfile
    rcases List.mem_append.1 hfile with hold | hfile
    · exact h.pos file hold
    · rw [hr file (Option.mem_toList.1 hfile)]
      exact Nat.zero_le _
  cases a with
  | create path =>
    refine ⟨hkept (ramfsCreate_slotKept s.heap path), hnew fun file hfile => ?_⟩
    unfold ramfsCreate at hfile
    split at hfile
    · cases hfile
    · dsimp only at hfile
      split at hfile
      · cases hfile
      · cases hfile
        rfl
  | createFile path content => exact ⟨hkept (ramfsCreateFile_slotKept path content), h.pos⟩
  | unlink path => exact ⟨hkept (ramfsUnlink_slotKept path), h.pos⟩
  | openPath path =>
    refine ⟨h.size, hnew fun file hfile => ?_⟩
    unfold ramfsOpen at hfile
    split at hfile
    · cases hfile
    · split at hfile
      · cases hfile
      · cases hfile
        rfl
  | write i buf =>
    cases hfile : s.handles[i]? with
    | none =>
      have happly : (ContentCall.write i buf).apply s = s := by
        simp only [ContentCall.apply, hfile]
      rw [happly]
      exact ⟨h.size, h.pos⟩
    | some file =>
      have hpos := h.pos file (List.mem_of_getElem? hfile)
      obtain ⟨n, hn⟩ : ∃ n, n = min buf.length (maxContent - file.fPos) := ⟨_, rfl⟩
      obtain ⟨hnext, f, hf, -, hfsize, -⟩ := ramfsWrite_slot s.ram hpos ha hn
      have happly : (ContentCall.write i buf).apply s = { s with
          ram := s.ram.setFile file.privateData f
          handles := s.handles.set i { file with fPos := file.fPos + n } } := by
        simp only [ContentCall.apply, hfile, hf, hnext]
      rw [happly]
      refine ⟨?_, ?_⟩
      · intro k
        by_cases hk : k = file.privateData
        · have hold := h.size file.privateData
          rw [hk, setFile_self, hfsize]
          split <;> omega
        · rw [setFile_of_ne hk]
          exact h.size k
      · intro g hg
        rcases List.mem_or_eq_of_mem_set hg with hg | rfl
        · exact h.pos g hg
        · dsimp only
          omega

/-- A call that meets the condition for all files leaves all of them with a 0 byte behind them. -/
theorem step (h : FilesEnded s) (ha : a.Allowed) (hends : ∀ k, a.EndsFile s k) :
    FilesEnded (a.apply s) where
  size := (h.bounded_apply ha).1
  pos := (h.bounded_apply ha).2
  endsAt k hused hsize := (h.endsAt_apply_iff ha hused hsize).2 (hends k)

end FilesEnded

/-! ## Whole runs -/

/-- The two reads agree about every file that has its path for itself, is shorter than its slot and
has no NUL byte. -/
def AllAgree (ram : RamFs) : Prop :=
  ∀ p k, NamesOnly ram p k → NulFree (ram.files k).bytes → (ram.files k).size < maxContent →
    ReadsAgree ram p k

/-- **The two reads agree** in every state of a run whose writes all find a 0 byte where they make
a file end; and with one call more they agree about a file if and only if that call is no other
write to it. -/
theorem ramfs_reads_agree {heap : Heap} {tr : List ContentCall} {s : RamState}
    (hrun : (contentLts.only fun s a _ => ∀ k, a.EndsFile s k).Run (RamState.init heap) tr s) :
    AllAgree s.ram ∧ ∀ a t, contentLts.step s a t → ∀ p k, NamesOnly t.ram p k →
      NulFree (t.ram.files k).bytes → (t.ram.files k).size < maxContent →
        (ReadsAgree t.ram p k ↔ a.EndsFile s k) := by
  have hended : FilesEnded s := hrun.invariant
    (fun t a u ht hstep => by rw [hstep.1.2]; exact ht.step hstep.1.1 hstep.2) (.init heap)
  constructor
  · intro p k hnames hnul hsize
    exact (readsAgree_iff_endsAt hnames hnul hsize).2 (hended.endsAt k hnames.used hsize)
  · rintro a t ⟨ha, rfl⟩ p k hnames hnul hsize
    rw [readsAgree_iff_endsAt hnames hnul hsize]
    exact hended.endsAt_apply_iff ha hnames.used hsize

/-! ## Two runs -/

/-- The state after the calls, in order. -/
def ContentCall.applyAll (s : RamState) (calls : List ContentCall) : RamState :=
  calls.foldl (fun s a => a.apply s) s

theorem run_applyAll (s : RamState) {calls : List ContentCall} (h : ∀ a ∈ calls, a.Allowed) :
    contentLts.Run s calls (ContentCall.applyAll s calls) := by
  induction calls generalizing s with
  | nil => exact .nil
  | cons a calls ih =>
    have hstep : contentLts.step s a (a.apply s) := ⟨h a List.mem_cons_self, rfl⟩
    exact .cons hstep (ih (a.apply s) fun b hb => h b (List.mem_cons_of_mem _ hb))

/-- A path of which slot 0 is the only one in use. -/
theorem NamesOnly.first {ram : RamFs} {p : Str} (hp : NulFree p) (hlen : p.length < maxPath)
    (h : ∀ j < maxFiles, (ram.files j).used = true ↔ j = 0)
    (hpath : strcmp (ram.files 0).mem 0 p = 0) : NamesOnly ram p 0 where
  nul_free := hp
  length_lt := hlen
  lt := by decide
  used := (h 0 (by decide)).2 rfl
  path := (strcmp_eq_zero_iff hp).1 hpath
  only j hj hused _ := (h j hj).1 hused

/-- The first write to a new file finds a 0 byte behind its end. -/
theorem ramfs_reads_agree_first :
    ReadsAgree (ContentCall.applyAll (RamState.init (Heap.mk 0))
      [.create (tmpSlash ++ str ['a']), .write 0 (str ['x'])]).ram (tmpSlash ++ str ['a']) 0 := by
  obtain ⟨s, hs⟩ : ∃ s, s =
      (ContentCall.create (tmpSlash ++ str ['a'])).apply (RamState.init (Heap.mk 0)) := ⟨_, rfl⟩
  obtain ⟨t, ht⟩ : ∃ t, t = (ContentCall.write 0 (str ['x'])).apply s := ⟨_, rfl⟩
  have hrun : (contentLts.only fun s a _ => ∀ k, a.EndsFile s k).Run (RamState.init (Heap.mk 0))
      ([] ++ [.create (tmpSlash ++ str ['a'])]) s := .snoc .nil ⟨⟨trivial, hs⟩, fun _ => trivial⟩
  have hallowed : (ContentCall.write 0 (str ['x'])).Allowed := by
    simp [ContentCall.Allowed, str, maxContent]
  have hp : NulFree (tmpSlash ++ str ['a']) := by unfold NulFree; decide
  have hused : ∀ j < maxFiles, (t.ram.files j).used = true ↔ j = 0 := by
    rw [ht, hs]
    decide +kernel
  have hpath : strcmp (t.ram.files 0).mem 0 (tmpSlash ++ str ['a']) = 0 := by
    rw [ht, hs]
    decide +kernel
  have hbytes : (t.ram.files 0).bytes = str ['x'] := by
    rw [ht, hs]
    decide +kernel
  have hsize : (t.ram.files 0).size < maxContent := by
    rw [ht, hs]
    decide +kernel
  have hnul : NulFree (t.ram.files 0).bytes := by
    rw [hbytes]
    unfold NulFree
    decide
  have hagree := (ramfs_reads_agree hrun).2 (.write 0 (str ['x'])) t ⟨hallowed, ht⟩
    (tmpSlash ++ str ['a']) 0 (.first hp (by decide) hused hpath) hnul hsize
  have hends : (ContentCall.write 0 (str ['x'])).EndsFile s 0 := by
    intro file hfile _ _ n hn _ _ _
    have hhandle : s.handles[0]? = some { fOps := .ramfs, privateData := 0, fPos := 0 } := by
      rw [hs]
      rfl
    rw [hhandle, Option.some.injEq] at hfile
    subst hfile
    have hone : n = 1 := hn
    rw [hone, hs]
    decide +kernel
  have happly : t = ContentCall.applyAll (RamState.init (Heap.mk 0))
      [.create (tmpSlash ++ str ['a']), .write 0 (str ['x'])] := by
    rw [ht, hs]
    rfl
  rw [← happly]
  exact hagree.2 hends

/-- The calls `ramfs_create("/tmp/a")`, `ramfs_write` of two bytes, `ramfs_unlink("/tmp/a")`,
`ramfs_create("/tmp/b")`, `ramfs_write` of one byte. -/
def recycledCalls : List ContentCall :=
  [.create (tmpSlash ++ str ['a']), .write 0 (str ['x', 'y']), .unlink (tmpSlash ++ str ['a']),
    .create (tmpSlash ++ str ['b']), .write 1 (str ['z'])]

/-- **A byte of an unlinked file is read**: of `/tmp/b`, which has the one byte `z`,
`ramfs_read_file` delivers `zy`. -/
theorem stale_byte_read : ∃ s, contentLts.Run (RamState.init (Heap.mk 0)) recycledCalls s ∧
    NamesOnly s.ram (tmpSlash ++ str ['b']) 0 ∧ (s.ram.files 0).bytes = str ['z'] ∧
    ramfsReadFile s.ram (tmpSlash ++ str ['b']) 16 = some (str ['z', 'y']) ∧ ¬ AllAgree s.ram := by
  have hallowed : ∀ a ∈ recycledCalls, a.Allowed := by
    simp [recycledCalls, ContentCall.Allowed, str, maxContent]
  have hp : NulFree (tmpSlash ++ str ['b']) := by unfold NulFree; decide
  obtain ⟨s, hs⟩ : ∃ s, s = ContentCall.applyAll (RamState.init (Heap.mk 0)) recycledCalls :=
    ⟨_, rfl⟩
  obtain ⟨hused, hpath, hsize, hbytes, hread⟩ :
      (∀ j < maxFiles, (s.ram.files j).used = true ↔ j = 0) ∧
      strcmp (s.ram.files 0).mem 0 (tmpSlash ++ str ['b']) = 0 ∧ (s.ram.files 0).size = 1 ∧
      (s.ram.files 0).bytes = str ['z'] ∧
      ramfsReadFile s.ram (tmpSlash ++ str ['b']) 16 = some (str ['z', 'y']) := by
    rw [hs]
    decide +kernel
  have hnames : NamesOnly s.ram (tmpSlash ++ str ['b']) 0 := .first hp (by decide) hused hpath
  have hfits : (s.ram.files 0).size < maxContent := by
    rw [hsize]
    decide
  refine ⟨s, hs ▸ run_applyAll _ hallowed, hnames, hbytes, hread, ?_⟩
  intro hagree
  have hnul : NulFree (s.ram.files 0).bytes := by
    rw [hbytes]
    unfold NulFree
    decide
  obtain ⟨c, hc, hc'⟩ := hagree _ 0 hnames hnul hfits 16 (by omega) (by decide)
  have heq := (opensTo_bytes hnames.findUsed_eq (Nat.le_of_lt hfits)).unique hc'
  rw [hread, ← heq, hbytes] at hc
  exact absurd hc (by decide)

end OsArm
