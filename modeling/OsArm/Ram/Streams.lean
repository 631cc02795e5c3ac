import OsArm.Lib.Stream
import OsArm.Ram.Basic

/-!
# Files of RAMFS as shared streams

A slot of RAMFS and the handles on it behave as a `SharedStream` of capacity
4096.

* `ramfsRead_eq`, `ramfsWrite_eq` — what the two calls do to a handle that does
  not stand behind the end of its file.
* `Represents` — the slot and its handles against a stream; `Represents.step`
  is the simulation.
* `ramfs_refines_stream` — every run from the creation of a file on answers as
  the stream does, and touches nothing but the content of the slot.
-/

namespace OsArm

/-! ## Slots -/

section Slots

variable {ram : RamFs} {i k : Nat} {f : RamfsFile}

@[simp] theorem setFile_self : (ram.setFile i f).files i = f := if_pos rfl

theorem setFile_of_ne (h : k ≠ i) : (ram.setFile i f).files k = ram.files k := if_neg h

theorem setFile_files (ram : RamFs) (i : Nat) : ram.setFile i (ram.files i) = ram := by
  have h : (fun k => if k = i then ram.files i else ram.files k) = ram.files := by
    funext k
    split
    case isTrue hk => rw [hk]
    case isFalse => rfl
  rw [RamFs.setFile, h]

/-- Putting a slot in place changes nothing only if it is there already. -/
theorem setFile_eq_self_iff : ram.setFile i f = ram ↔ f = ram.files i := by
  constructor
  · intro h
    have hself : (ram.setFile i f).files i = f := setFile_self
    rw [← hself, h]
  · rintro rfl
    exact setFile_files ram i

end Slots

/-- The bytes of a file. -/
def RamfsFile.bytes (f : RamfsFile) : List UInt8 := memcpyFrom f.mem contentOff f.size

/-- Storing into a buffer, without a gap behind its end. -/
theorem memcpyFrom_memcpyTo {m : ByteMem} {a n q c : Nat} {buf : List UInt8} (hq : q ≤ n)
    (hc : c ≤ buf.length) :
    memcpyFrom (memcpyTo m (a + q) buf c) a (max n (q + c)) =
      splice (memcpyFrom m a n) (buf.take c) q := by
  refine List.ext_getElem? ?_
  intro i
  rw [SharedStream.getElem?_splice (by simpa using hq), getElem?_memcpyFrom, getElem?_memcpyFrom,
    List.length_take, Nat.min_eq_left hc, memcpyTo_eq]
  by_cases hin : q ≤ i ∧ i < q + c
  · obtain ⟨j, rfl⟩ : ∃ j, i = q + j := ⟨i - q, by omega⟩
    have hj : j < c := by omega
    rw [if_pos (by omega), if_pos hin, Nat.add_sub_cancel_left, List.getElem?_take_of_lt hj,
      ← Nat.add_assoc, ByteMem.blit_add hj, List.getD_eq_getElem _ _ (by omega),
      List.getElem?_eq_getElem (by omega)]
  · rw [if_neg hin, ByteMem.blit_outside (by omega)]
    by_cases hn : i < n
    · rw [if_pos (by omega), if_pos hn]
    · rw [if_neg (by omega), if_neg hn]

/-! ## The two calls -/

section Calls

variable {ram : RamFs} {file : VfsFile}

/-- **`ramfs_read`** delivers the bytes from the position on, as many as there are
and as are asked for. -/
theorem ramfsRead_eq {count : Nat} (hpos : file.fPos ≤ (ram.files file.privateData).size)
    (hsize : (ram.files file.privateData).size ≤ maxContent) (hcount : file.fPos + count < 2 ^ 64) :
    ramfsRead ram file count =
      (((ram.files file.privateData).bytes.drop file.fPos).take count,
        { file with fPos := file.fPos +
          (((ram.files file.privateData).bytes.drop file.fPos).take count).length }) := by
  rw [maxContent] at hsize
  have hslice := memcpyFrom_slice (ram.files file.privateData).mem contentOff
    (ram.files file.privateData).size file.fPos count
  rw [RamfsFile.bytes, ← hslice, length_memcpyFrom]
  unfold ramfsRead
  dsimp only
  split
  case isTrue hend =>
    have hnone : min count ((ram.files file.privateData).size - file.fPos) = 0 := by omega
    rw [hnone]
    rfl
  case isFalse hlt =>
    have hclip : (if (file.fPos + count) % 2 ^ 64 > (ram.files file.privateData).size then
        (ram.files file.privateData).size - file.fPos else count) =
        min count ((ram.files file.privateData).size - file.fPos) := by
      rw [Nat.mod_eq_of_lt hcount]
      split <;> omega
    rw [hclip, Nat.mod_eq_of_lt (by omega)]

/-- **`ramfs_write`** stores what fits into the slot at the position. -/
theorem ramfsWrite_eq {buf : List UInt8} {n : Nat}
    (hpos : file.fPos ≤ (ram.files file.privateData).size)
    (hsize : (ram.files file.privateData).size ≤ maxContent)
    (hcount : file.fPos + buf.length < 2 ^ 64) (hn : n = min buf.length (maxContent - file.fPos)) :
    ramfsWrite ram file buf = (n, { file with fPos := file.fPos + n },
      ram.setFile file.privateData { ram.files file.privateData with
        mem := memcpyTo (ram.files file.privateData).mem (contentOff + file.fPos) buf n
        size := max (ram.files file.privateData).size (file.fPos + n) }) := by
  have hclip : (if (file.fPos + buf.length) % 2 ^ 64 > maxContent then
      (2 ^ 64 + maxContent - file.fPos) % 2 ^ 64 else buf.length) = n := by
    rw [Nat.mod_eq_of_lt hcount, hn]
    rw [maxContent] at hsize ⊢
    split <;> omega
  unfold ramfsWrite
  dsimp only
  rw [hclip]
  split
  case isTrue hpos' =>
    have hmod : (file.fPos + n) % 2 ^ 64 = file.fPos + n := Nat.mod_eq_of_lt (by omega)
    have hmax : (if file.fPos + n > (ram.files file.privateData).size then file.fPos + n
        else (ram.files file.privateData).size) =
        max (ram.files file.privateData).size (file.fPos + n) := by
      split <;> omega
    rw [hmod, hmax]
  case isFalse hzero =>
    have hn0 : n = 0 := by omega
    subst hn0
    rw [Nat.add_zero, Nat.max_eq_left hpos, memcpyTo, setFile_files]

/-- What `ramfs_write` leaves alone, also behind the end of the file: all other
slots, whether its own is used, and the bytes outside the content. -/
theorem ramfsWrite_frame {buf : List UInt8} (hpos : file.fPos ≤ maxContent)
    (hcount : file.fPos + buf.length < 2 ^ 64) :
    (ramfsWrite ram file buf).2.1.fOps = file.fOps ∧
      (ramfsWrite ram file buf).2.1.privateData = file.privateData ∧
      (ramfsWrite ram file buf).2.1.fPos ≤ maxContent ∧
      (∀ k, k ≠ file.privateData → (ramfsWrite ram file buf).2.2.files k = ram.files k) ∧
      (∀ k, ((ramfsWrite ram file buf).2.2.files k).used = (ram.files k).used) ∧
      ∀ k x, x < contentOff ∨ contentOff + maxContent ≤ x →
        ((ramfsWrite ram file buf).2.2.files k).mem x = (ram.files k).mem x := by
  have hclip : (if (file.fPos + buf.length) % 2 ^ 64 > maxContent then
      (2 ^ 64 + maxContent - file.fPos) % 2 ^ 64 else buf.length) =
      min buf.length (maxContent - file.fPos) := by
    rw [Nat.mod_eq_of_lt hcount]
    rw [maxContent] at hpos ⊢
    split <;> omega
  unfold ramfsWrite
  dsimp only
  rw [hclip]
  split
  case isFalse => exact ⟨rfl, rfl, hpos, fun _ _ => rfl, fun _ => rfl, fun _ _ _ => rfl⟩
  case isTrue hn =>
    have hmod : (file.fPos + min buf.length (maxContent - file.fPos)) % 2 ^ 64 =
        file.fPos + min buf.length (maxContent - file.fPos) := Nat.mod_eq_of_lt (by omega)
    refine ⟨rfl, rfl, ?_, fun k hk => setFile_of_ne hk, ?_, ?_⟩
    · dsimp only
      rw [hmod]
      omega
    · intro k
      by_cases hk : k = file.privateData
      · rw [hk, setFile_self]
      · rw [setFile_of_ne hk]
    · intro k x hx
      by_cases hk : k = file.privateData
      · rw [hk, setFile_self]
        dsimp only
        rw [memcpyTo_eq, ByteMem.blit_outside (by omega)]
      · rw [setFile_of_ne hk]

end Calls

/-! ## The transition system -/

/-- The heap, the files and the handles on one of them. -/
structure RamState where
  heap : Heap
  ram : RamFs
  handles : List VfsFile

/-- Opening, reading and writing slot `k`; the sums of positions and counts stay
within `size_t`. -/
def ramLts (k : Nat) : Lts RamState (SharedStream.Event UInt8) where
  step s e t :=
    match e with
    | .opened => ∃ path file, ramfsOpen s.heap s.ram path = (some file, t.heap) ∧
        file.privateData = k ∧ t.ram = s.ram ∧ t.handles = s.handles ++ [file]
    | .read h count out => ∃ file, s.handles[h]? = some file ∧ file.fPos + count < 2 ^ 64 ∧
        out = (ramfsRead s.ram file count).1 ∧
        t = { s with handles := s.handles.set h (ramfsRead s.ram file count).2 }
    | .wrote h buf n => ∃ file, s.handles[h]? = some file ∧ file.fPos + buf.length < 2 ^ 64 ∧
        n = (ramfsWrite s.ram file buf).1 ∧
        t = { s with
          ram := (ramfsWrite s.ram file buf).2.2
          handles := s.handles.set h (ramfsWrite s.ram file buf).2.1 }

/-- The state after slot `k` has become a file with the bytes `data`: by
`ramfs_create`, which returns a handle, or by `ramfs_create_file`, which does not. -/
def Created (k : Nat) (data : List UInt8) (s : RamState) : Prop :=
  (∃ heap ram path file, ramfsCreate heap ram path = (some file, s.heap, s.ram) ∧
    file.privateData = k ∧ s.handles = [file] ∧ data = []) ∨
  ∃ ram path content, ramfsCreateFile ram path content = (0, s.ram) ∧ findFree ram = some k ∧
    s.handles = [] ∧ data = content.take (maxContent - 1)

/-- **Slot `k` and its handles represent a stream.**  `ram` is the table the run
started with: of it, only the content of the slot has changed. -/
structure Represents (k : Nat) (ram : RamFs) (s : RamState) (a : SharedStream UInt8) : Prop where
  data : (s.ram.files k).bytes = a.data
  pos : s.handles.map VfsFile.fPos = a.pos
  handles : ∀ file ∈ s.handles, file.privateData = k
  bounded : a.Bounded maxContent
  others : ∀ j, j ≠ k → s.ram.files j = ram.files j
  used : (s.ram.files k).used = (ram.files k).used
  outside : ∀ x, x < contentOff ∨ contentOff + maxContent ≤ x →
    (s.ram.files k).mem x = (ram.files k).mem x

namespace Represents

variable {k : Nat} {ram : RamFs} {s t : RamState} {a : SharedStream UInt8}

theorem size_eq (h : Represents k ram s a) : (s.ram.files k).size = a.data.length := by
  rw [← h.data, RamfsFile.bytes, length_memcpyFrom]

/-- A handle stands inside the file, and the file in its slot. -/
theorem handle (h : Represents k ram s a) {i : Nat} {file : VfsFile}
    (hfile : s.handles[i]? = some file) :
    file.privateData = k ∧ a.pos[i]? = some file.fPos ∧
      file.fPos ≤ (s.ram.files file.privateData).size ∧
      (s.ram.files file.privateData).size ≤ maxContent := by
  have hk := h.handles file (List.mem_of_getElem? hfile)
  have hpos : a.pos[i]? = some file.fPos := by
    rw [← h.pos, List.getElem?_map, hfile, Option.map_some]
  rw [hk, h.size_eq]
  exact ⟨rfl, hpos, h.bounded.pos_le _ (List.mem_of_getElem? hpos), h.bounded.length_le⟩

theorem handles_set (h : Represents k ram s a) {i : Nat} {file : VfsFile}
    (hfile : file.privateData = k) : ∀ g ∈ s.handles.set i file, g.privateData = k := by
  intro g hg
  rcases List.mem_or_eq_of_mem_set hg with hg | rfl
  · exact h.handles g hg
  · exact hfile

/-- **The simulation.**  What the slot answers, the stream answers. -/
theorem step (h : Represents k ram s a) {e : SharedStream.Event UInt8}
    (hstep : (ramLts k).step s e t) :
    ∃ b, (SharedStream.lts UInt8 maxContent).step a e b ∧ Represents k ram t b := by
  cases e with
  | opened =>
    obtain ⟨path, file, hopen, hk, hram, hhandles⟩ := hstep
    have hzero : file.fPos = 0 := by
      unfold ramfsOpen at hopen
      split at hopen
      · cases hopen
      · split at hopen
        · cases hopen
        · cases hopen
          rfl
    have hb : (SharedStream.lts UInt8 maxContent).step a .opened
        { a with pos := a.pos ++ [0] } := rfl
    refine ⟨_, hb, ?_, ?_, ?_, h.bounded.step hb, ?_, ?_, ?_⟩
    · rw [hram]
      exact h.data
    · rw [hhandles, List.map_append, h.pos, List.map_singleton, hzero]
    · intro g hg
      rw [hhandles] at hg
      rcases List.mem_append.1 hg with hg | hg
      · exact h.handles g hg
      · rw [List.mem_singleton.1 hg]
        exact hk
    · rw [hram]
      exact h.others
    · rw [hram]
      exact h.used
    · rw [hram]
      exact h.outside
  | read i count out =>
    obtain ⟨file, hfile, hcount, hout, rfl⟩ := hstep
    obtain ⟨hk, hpos, hle, hsize⟩ := h.handle hfile
    rw [ramfsRead_eq hle hsize hcount] at hout ⊢
    rw [hk, h.data] at hout ⊢
    have hb : (SharedStream.lts UInt8 maxContent).step a (.read i count out)
        { a with pos := a.pos.set i (file.fPos + out.length) } := ⟨file.fPos, hpos, hout, rfl⟩
    refine ⟨_, hb, h.data, ?_, h.handles_set rfl, h.bounded.step hb, h.others, h.used, h.outside⟩
    rw [List.map_set, h.pos, hout]
  | wrote i buf n =>
    obtain ⟨file, hfile, hcount, hn, rfl⟩ := hstep
    obtain ⟨hk, hpos, hle, hsize⟩ := h.handle hfile
    rw [ramfsWrite_eq hle hsize hcount rfl] at hn ⊢
    dsimp only at hn
    rw [← hn, hk]
    rw [hk] at hle
    have hb : (SharedStream.lts UInt8 maxContent).step a (.wrote i buf n)
        { data := splice a.data (buf.take n) file.fPos, pos := a.pos.set i (file.fPos + n) } :=
      ⟨file.fPos, hpos, hn, rfl⟩
    refine ⟨_, hb, ?_, ?_, h.handles_set rfl, h.bounded.step hb, ?_, ?_, ?_⟩
    · have hn' : n ≤ buf.length := by omega
      rw [setFile_self, ← h.data]
      exact memcpyFrom_memcpyTo hle hn'
    · rw [List.map_set, h.pos]
    · intro j hj
      dsimp only
      rw [setFile_of_ne hj, h.others j hj]
    · rw [setFile_self]
      exact h.used
    · intro x hx
      rw [setFile_self, ← h.outside x hx]
      dsimp only
      rw [memcpyTo_eq, ByteMem.blit_outside (by omega)]

end Represents

/-! ## Whole runs -/

/-- The copy loop leaves the string, cut at the limit. -/
theorem copyBounded_eq (m : ByteMem) (dst limit : Nat) (s : Str) :
    copyBounded m dst limit s = strcpy m dst (s.take limit) := by
  induction limit generalizing m dst s with
  | zero => rw [copyBounded, List.take_zero, strcpy]
  | succ limit ih =>
    cases s with
    | nil => rw [copyBounded, List.take_nil, strcpy]
    | cons c cs => rw [copyBounded, ih, List.take_succ_cons, strcpy]

theorem memcpyFrom_strcpy (m : ByteMem) (a : Nat) (s : Str) :
    memcpyFrom (strcpy m a s) a s.length = s := by
  refine List.ext_getElem? ?_
  intro i
  rw [getElem?_memcpyFrom, strcpy_eq]
  split
  case isTrue h =>
    rw [ByteMem.blit_add (by omega), List.getD_eq_getElem _ _ h, List.getElem?_eq_getElem h]
  case isFalse h => rw [List.getElem?_eq_none (by omega)]

/-- A new file represents a stream with its initial bytes. -/
theorem Created.represents {k : Nat} {data : List UInt8} {s : RamState} (h : Created k data s) :
    Represents k s.ram s { data := data, pos := s.handles.map VfsFile.fPos } := by
  rcases h with ⟨heap, ram, path, file, hcreate, hk, hhandles, rfl⟩ |
    ⟨ram, path, content, hcreate, hfree, hhandles, rfl⟩
  · unfold ramfsCreate at hcreate
    split at hcreate
    case h_1 => cases hcreate
    case h_2 i hfree =>
      cases hheap : kalloc heap sizeofVfsFile with
      | none => rw [hheap] at hcreate; cases hcreate
      | some p =>
        rw [hheap] at hcreate
        simp only [Prod.mk.injEq, Option.some.injEq] at hcreate
        obtain ⟨rfl, -, hram⟩ := hcreate
        have hk' : i = k := hk
        subst hk'
        refine ⟨?_, rfl, ?_, ⟨Nat.zero_le _, ?_⟩, fun _ _ => rfl, rfl, fun _ _ => rfl⟩
        · rw [← hram, setFile_self]
          rfl
        · rw [hhandles]
          simp
        · rw [hhandles]
          simp
  · unfold ramfsCreateFile at hcreate
    rw [hfree] at hcreate
    simp only [Prod.mk.injEq, true_and] at hcreate
    have hlen : (content.take (maxContent - 1)).length = min content.length (maxContent - 1) := by
      rw [List.length_take, Nat.min_comm]
    refine ⟨?_, rfl, ?_, ⟨?_, ?_⟩, fun _ _ => rfl, rfl, fun _ _ => rfl⟩
    · rw [← hcreate, setFile_self, RamfsFile.bytes]
      dsimp only
      rw [copyBounded_eq _ contentOff, ← hlen, memcpyFrom_strcpy]
    · rw [hhandles]
      simp
    · dsimp only
      rw [hlen]
      exact Nat.le_trans (Nat.min_le_right _ _) (Nat.sub_le _ _)
    · rw [hhandles]
      simp

/-- **Refinement.**  From the creation of a file on, whatever is opened, read and
written in whatever order: the stream gives the same answers, the bytes of the
slot are its bytes, positions and size stay inside the content, and nothing else
in the table changes. -/
theorem ramfs_refines_stream {k : Nat} {data : List UInt8} {s t : RamState}
    {tr : List (SharedStream.Event UInt8)} (hs : Created k data s) (h : (ramLts k).Run s tr t) :
    (∃ a, (SharedStream.lts UInt8 maxContent).Run
        { data := data, pos := s.handles.map VfsFile.fPos } tr a ∧
      (t.ram.files k).bytes = a.data ∧ t.handles.map VfsFile.fPos = a.pos) ∧
    (t.ram.files k).size ≤ maxContent ∧
    (∀ file ∈ t.handles, file.privateData = k ∧ file.fPos ≤ (t.ram.files k).size ∧
      (∀ count, file.fPos + count < 2 ^ 64 →
        file.fPos + (ramfsRead t.ram file count).1.length ≤ (t.ram.files k).size) ∧
      ∀ buf, file.fPos + buf.length < 2 ^ 64 →
        file.fPos + (ramfsWrite t.ram file buf).1 ≤ maxContent) ∧
    (∀ j, j ≠ k → t.ram.files j = s.ram.files j) ∧
    ∀ x, x < contentOff ∨ contentOff + maxContent ≤ x →
      (t.ram.files k).mem x = (s.ram.files k).mem x := by
  obtain ⟨a, hrun, hrep⟩ := h.simulates
    (fun s e t a (hR : Represents k _ s a) hstep => hR.step hstep) hs.represents
  refine ⟨⟨a, hrun, hrep.data, hrep.pos⟩, ?_, ?_, hrep.others, hrep.outside⟩
  · rw [hrep.size_eq]
    exact hrep.bounded.length_le
  · intro file hfile
    obtain ⟨i, hi⟩ := List.mem_iff_getElem?.1 hfile
    obtain ⟨hk, -, hle, hsize⟩ := hrep.handle hi
    refine ⟨hk, hk ▸ hle, ?_, ?_⟩
    · intro count hcount
      rw [ramfsRead_eq hle hsize hcount, hk, List.length_take, List.length_drop, hrep.data,
        hrep.size_eq]
      rw [hk, hrep.size_eq] at hle
      omega
    · intro buf hcount
      rw [ramfsWrite_eq hle hsize hcount rfl]
      dsimp only
      omega

/-- Two bytes written through the handle of a new file. -/
theorem ramfs_refines_stream_write :
    ((ramfsWrite (ramfsCreate (Heap.mk 0) ramfsInit (tmpSlash ++ str ['a'])).2.2
      { fOps := .ramfs, privateData := 0, fPos := 0 } [1, 2]).2.2.files 0).size ≤ maxContent := by
  obtain ⟨s, hs⟩ : ∃ s, s = RamState.mk
      (ramfsCreate (Heap.mk 0) ramfsInit (tmpSlash ++ str ['a'])).2.1
      (ramfsCreate (Heap.mk 0) ramfsInit (tmpSlash ++ str ['a'])).2.2
      [{ fOps := .ramfs, privateData := 0, fPos := 0 }] := ⟨_, rfl⟩
  have hcreated : Created 0 [] s :=
    Or.inl ⟨Heap.mk 0, ramfsInit, tmpSlash ++ str ['a'], _, by rw [hs]; rfl, rfl, by rw [hs], rfl⟩
  have hstep : (ramLts 0).step s (.wrote 0 [1, 2] 2) _ :=
    ⟨{ fOps := .ramfs, privateData := 0, fPos := 0 }, by rw [hs]; rfl, by decide, by
      rw [hs]; rfl, rfl⟩
  have hsize := (ramfs_refines_stream hcreated (Lts.Run.nil.snoc hstep)).2.1
  rw [hs] at hsize
  exact hsize

end OsArm
