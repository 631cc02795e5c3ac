import OsArm.Proc.Basic
import OsArm.Shell

/-!
# Messages about files (`message.c`)

* `sendOpen`, `sendRead` — `send_message` with `MSG_OPEN` and `MSG_READ`; the bytes read pass
  through a buffer of 256.
* `sendRead_eq` — what a read of a RAMFS file comes to: up to 256 bytes, whatever was asked for.
* `ReadsAsAsked`, `ReadsAll` — one read, and reads one after the other, that go by the size asked
  for.
* `readsAll_iff` — they do exactly where the sizes fit what is left of the file.
-/

namespace OsArm

/-! ## The messages -/

/-- The file system, and the memory that `data` points into. -/
structure Files where
  vfs : Vfs
  mem : ByteMem

/-- `sizeof(buf)` in `send_message`. -/
def readBuf : Nat := 256

/-- `send_message` with `MSG_OPEN`. -/
def sendOpen (w : Files) (msg : Message) : Except Halt (Files × Message × Int) :=
  match msg.path with
  | none => .error .null
  | some path =>
    let (fd, vfs) := vfsOpen w.vfs path
    .ok ({ w with vfs := vfs }, { msg with fd := fd }, fd)

/-- `send_message` with `MSG_READ`. -/
def sendRead (w : Files) (msg : Message) : Files × Message × Int :=
  match vfsRead w.vfs msg.fd readBuf with
  | (none, vfs) => ({ w with vfs := vfs }, msg, -1)
  | (some buf, vfs) =>
    if buf.length > 0 then
      ({ vfs := vfs, mem := memcpyTo w.mem msg.data.toNat buf buf.length },
        { msg with size := UInt64.ofNat buf.length }, buf.length)
    else ({ w with vfs := vfs }, msg, buf.length)

/-- `send_message` with a type it has no case for, `MSG_CLOSE` among them. -/
def sendDefault (w : Files) (msg : Message) : Files × Message × Int := (w, msg, -1)

/-! ## Reading -/

/-- The handle behind the next `n` bytes of `c`. -/
def VfsFile.advance (file : VfsFile) (c : List UInt8) (n : Nat) : VfsFile :=
  { file with fPos := file.fPos + ((c.drop file.fPos).take n).length }

/-- **A read that goes by its size**: what is left of the content `c` behind the position of `file`,
up to `msg->size` bytes of it, is put into the buffer and nothing outside of it, its length is
answered and stored, and the descriptor moves on by it. -/
structure ReadsAsAsked (c : List UInt8) (file : VfsFile) (w : Files) (msg : Message) : Prop where
  answer : (sendRead w msg).2.2 = ((c.drop file.fPos).take msg.size.toNat).length
  size : (sendRead w msg).2.1.size.toNat = ((c.drop file.fPos).take msg.size.toNat).length
  data : memcpyFrom (sendRead w msg).1.mem msg.data.toNat
    ((c.drop file.fPos).take msg.size.toNat).length = (c.drop file.fPos).take msg.size.toNat
  outside : ∀ x, x < msg.data.toNat ∨ msg.data.toNat + msg.size.toNat ≤ x →
    (sendRead w msg).1.mem x = w.mem x
  pos : getFile (sendRead w msg).1.vfs msg.fd = some (file.advance c msg.size.toNat)

/-- The bytes that reads one after the other put into their buffers. -/
def delivered (w : Files) : List Message → List UInt8
  | [] => []
  | msg :: msgs =>
    let r := sendRead w msg
    memcpyFrom r.1.mem msg.data.toNat r.2.2.toNat ++ delivered r.1 msgs

/-- **Reads that go by their sizes**, one after the other. -/
def ReadsAll (c : List UInt8) : VfsFile → Files → List Message → Prop
  | _, _, [] => True
  | file, w, msg :: msgs =>
    ReadsAsAsked c file w msg ∧
      ReadsAll c (file.advance c msg.size.toNat) (sendRead w msg).1 msgs

/-- The size `n` fits a remainder of `left` bytes: it is that of the buffer in between, or both the
buffer in between and the size have room for all that is left; at the end of the file it is zero. -/
def SizeFits (left n : Nat) : Prop :=
  left = 0 ∧ n = 0 ∨ 0 < left ∧ (n = readBuf ∨ left ≤ min n readBuf)

/-- So do the sizes of reads one after the other. -/
def SizesFit : Nat → List Message → Prop
  | _, [] => True
  | left, msg :: msgs => SizeFits left msg.size.toNat ∧ SizesFit (left - msg.size.toNat) msgs

section Reading

variable {c : List UInt8} {file : VfsFile} {w : Files} {msg : Message} {msgs : List Message}

/-- `ramfs_read` for any position of the handle; behind the end it delivers nothing. -/
theorem ramfsRead_bytes {ram : RamFs} {count : Nat}
    (hsize : (ram.files file.privateData).size ≤ maxContent) (hcount : file.fPos + count < 2 ^ 64) :
    ramfsRead ram file count =
      (((ram.files file.privateData).bytes.drop file.fPos).take count,
        file.advance (ram.files file.privateData).bytes count) := by
  by_cases hpos : file.fPos ≤ (ram.files file.privateData).size
  · exact ramfsRead_eq hpos hsize hcount
  · have hlen : (ram.files file.privateData).bytes.length = (ram.files file.privateData).size := by
      rw [RamfsFile.bytes, length_memcpyFrom]
    have hdrop : (ram.files file.privateData).bytes.drop file.fPos = [] :=
      List.drop_eq_nil_of_le (by omega)
    rw [VfsFile.advance, hdrop, List.take_nil, ramfsRead]
    exact if_pos (by omega)

/-- **A read of a RAMFS file** takes what is left of it, up to the 256 bytes of the buffer in
between, and never looks at the size asked for. -/
theorem sendRead_eq (hw : RamBounded w.vfs) (hfile : getFile w.vfs msg.fd = some file)
    (hops : file.fOps = .ramfs) {got : List UInt8}
    (hgot : got = ((w.vfs.ram.files file.privateData).bytes.drop file.fPos).take readBuf) :
    sendRead w msg =
      (Files.mk
          (w.vfs.setFile msg.fd (file.advance (w.vfs.ram.files file.privateData).bytes readBuf))
          (memcpyTo w.mem msg.data.toNat got got.length),
        { msg with size := if got = [] then msg.size else UInt64.ofNat got.length },
        (got.length : Int)) := by
  have hpos := hw.pos _ file (getFile_table hfile).2 hops
  have hread : vfsRead w.vfs msg.fd readBuf = (some got, w.vfs.setFile msg.fd
      (file.advance (w.vfs.ram.files file.privateData).bytes readBuf)) := by
    rw [vfsRead, hfile]
    dsimp only
    rw [hops]
    dsimp only
    rw [ramfsRead_bytes (hw.size _) (by rw [maxContent] at hpos; rw [readBuf]; omega), hgot]
  rw [sendRead, hread]
  dsimp only
  cases got with
  | nil => rfl
  | cons b bs => rfl

theorem getFile_setFile {v : Vfs} {fd : Int} {file' : VfsFile} (h : getFile v fd = some file) :
    getFile (v.setFile fd file') fd = some file' := by
  unfold getFile at h ⊢
  split at h
  · cases h
  · next hrange =>
    rw [if_neg hrange]
    exact if_pos rfl

/-- **One read** goes by its size if and only if the size fits what is left of the file. -/
theorem readsAsAsked_iff (hw : RamBounded w.vfs) (hfile : getFile w.vfs msg.fd = some file)
    (hops : file.fOps = .ramfs) (hc : (w.vfs.ram.files file.privateData).bytes = c) :
    ReadsAsAsked c file w msg ↔ SizeFits (c.length - file.fPos) msg.size.toNat := by
  obtain ⟨got, hgot⟩ : ∃ got, got = (c.drop file.fPos).take readBuf := ⟨_, rfl⟩
  have hsend := sendRead_eq hw hfile hops (hgot.trans (by rw [hc]))
  have hlen : got.length = min readBuf (c.length - file.fPos) := by
    rw [hgot, List.length_take, List.length_drop]
  have hout : ((c.drop file.fPos).take msg.size.toNat).length =
      min msg.size.toNat (c.length - file.fPos) := by
    rw [List.length_take, List.length_drop]
  constructor
  · intro h
    have hanswer := h.answer
    have hsize := h.size
    rw [hsend, hout] at hanswer hsize
    dsimp only at hanswer hsize
    rw [hlen, readBuf] at hanswer
    unfold SizeFits readBuf
    by_cases hleft : c.length - file.fPos = 0
    · rw [if_pos (List.eq_nil_of_length_eq_zero (by omega))] at hsize
      omega
    · omega
  · intro h
    have hmin : min msg.size.toNat (c.length - file.fPos) = min readBuf (c.length - file.fPos) := by
      unfold SizeFits readBuf at *
      omega
    have htake : (c.drop file.fPos).take msg.size.toNat = got := by
      rw [hgot, List.take_eq_take_iff, List.length_drop, hmin]
    constructor
    case answer =>
      rw [hsend, htake]
    case size =>
      rw [hsend, htake]
      dsimp only
      split
      · next hnil =>
        rw [hnil, List.length_nil]
        rw [hnil, List.length_nil] at hlen
        unfold SizeFits readBuf at *
        omega
      · rw [UInt64.toNat_ofNat']
        unfold readBuf at hlen
        omega
    case data =>
      rw [hsend, htake]
      dsimp only
      rw [memcpyFrom_eq_iff]
      intro k hk
      rw [memcpyTo_eq, ByteMem.blit_add hk]
    case outside =>
      intro x hx
      rw [hsend]
      dsimp only
      rw [memcpyTo_eq, ByteMem.blit_outside (by omega)]
    case pos =>
      rw [hsend, hc]
      dsimp only
      rw [getFile_setFile hfile, VfsFile.advance, VfsFile.advance, htake, hgot]

/-! ## Reads one after the other -/

theorem sendRead_vfs (w : Files) (msg : Message) :
    (sendRead w msg).1.vfs = (vfsRead w.vfs msg.fd readBuf).2 := by
  unfold sendRead
  cases vfsRead w.vfs msg.fd readBuf with
  | mk buf vfs =>
    cases buf with
    | none => rfl
    | some buf =>
      dsimp only
      split <;> rfl

/-- What is left behind a handle that has moved on. -/
theorem drop_advance (file : VfsFile) (c : List UInt8) (n : Nat) :
    c.drop (file.advance c n).fPos = (c.drop file.fPos).drop n := by
  show c.drop (file.fPos + ((c.drop file.fPos).take n).length) = _
  rw [← List.drop_drop, List.length_take]
  rcases Nat.le_total n (c.drop file.fPos).length with h | h
  · rw [Nat.min_eq_left h]
  · rw [Nat.min_eq_right h, List.drop_length, List.drop_eq_nil_of_le h]

/-- Reads that go by their sizes deliver the content in order, as much of it as the sizes make. -/
theorem ReadsAll.delivered_eq (h : ReadsAll c file w msgs) :
    delivered w msgs = (c.drop file.fPos).take (msgs.map fun msg => msg.size.toNat).sum := by
  induction msgs generalizing file w with
  | nil => rfl
  | cons msg msgs ih =>
    obtain ⟨hread, hrest⟩ := h
    rw [delivered, hread.answer, Int.toNat_natCast, hread.data, ih hrest, drop_advance,
      List.map_cons, List.sum_cons, List.take_add]

/-- **Reads one after the other** go by their sizes if and only if each of them fits what those
before it have left of the file. -/
theorem readsAll_iff_sizesFit {fd : Int} (hw : RamBounded w.vfs)
    (hfile : getFile w.vfs fd = some file) (hops : file.fOps = .ramfs)
    (hc : (w.vfs.ram.files file.privateData).bytes = c) (hfd : ∀ msg ∈ msgs, msg.fd = fd) :
    ReadsAll c file w msgs ↔ SizesFit (c.length - file.fPos) msgs := by
  induction msgs generalizing file w with
  | nil => exact Iff.rfl
  | cons msg msgs ih =>
    obtain ⟨rfl, hfds⟩ := List.forall_mem_cons.1 hfd
    have hone := readsAsAsked_iff hw hfile hops hc
    rw [ReadsAll, SizesFit, hone]
    refine and_congr_right ?_
    intro hfit
    have hread := hone.2 hfit
    have hbounded : RamBounded (sendRead w msg).1.vfs := by
      rw [sendRead_vfs]
      exact hw.read _ _
    have hram : (sendRead w msg).1.vfs.ram = w.vfs.ram := by
      rw [sendRead_eq hw hfile hops rfl]
      rfl
    have hleft : c.length - (file.advance c msg.size.toNat).fPos =
        c.length - file.fPos - msg.size.toNat := by
      rw [← List.length_drop, drop_advance, List.length_drop, List.length_drop]
    rw [← hleft]
    exact ih hbounded hread.pos hops (by rw [hram]; exact hc) hfds

/-- **`MSG_READ` honours the requested size.**  In every state a run of VFS calls reaches, for every
open descriptor of a RAMFS file and every sequence of reads of it: they all go by their sizes, and
deliver the content in order, if and only if each size fits what is left of the file before it. -/
theorem readsAll_iff {m : ByteMem} {cwd : Str} {t : FdState} {fd : Int}
    (hrun : fdLts.Reachable (FdState.init m cwd) t) (hfile : getFile t.v fd = some file)
    (hops : file.fOps = .ramfs) (hc : (t.v.ram.files file.privateData).bytes = c)
    (hfd : ∀ msg ∈ msgs, msg.fd = fd) (mem : ByteMem) :
    (ReadsAll c file { vfs := t.v, mem := mem } msgs ∧
      delivered { vfs := t.v, mem := mem } msgs =
        (c.drop file.fPos).take (msgs.map fun msg => msg.size.toNat).sum) ↔
      SizesFit (c.length - file.fPos) msgs := by
  have hw : RamBounded (Files.mk t.v mem).vfs := ramBounded_run hrun
  rw [← readsAll_iff_sizesFit hw hfile hops hc hfd]
  exact ⟨And.left, fun h => ⟨h, h.delivered_eq⟩⟩

end Reading

/-- A file of three bytes, opened anew after they have been written. -/
theorem three_bytes : ∃ t, fdLts.Reachable (FdState.init (fun _ => 0) [slash]) t ∧
    getFile t.v 1 = some { fOps := .ramfs, privateData := 0, fPos := 0 } ∧
    (t.v.ram.files 0).bytes = [1, 2, 3] := by
  refine ⟨_,
    (((Lts.Reachable.refl _).tail (a := .opening (.create (tmpSlash ++ str ['a']))) rfl).tail
      (a := .write 0 [1, 2, 3]) rfl).tail (a := .opening (.openPath (tmpSlash ++ str ['a']))) rfl,
    ?_, ?_⟩
  · rfl
  · rfl

/-- A buffer of the size of what is left, and then one of none. -/
theorem readsAll_iff_three : ∃ t, fdLts.Reachable (FdState.init (fun _ => 0) [slash]) t ∧
    delivered { vfs := t.v, mem := fun _ => 0 }
      [{ Message.zero with fd := 1, data := 64, size := 3 }, { Message.zero with fd := 1 }] =
      [1, 2, 3] := by
  obtain ⟨t, hrun, hfile, hbytes⟩ := three_bytes
  refine ⟨t, hrun, ((readsAll_iff hrun hfile rfl hbytes (by simp) fun _ => 0).2 ?_).2⟩
  exact ⟨Or.inr ⟨by decide, Or.inr (by decide)⟩, Or.inl ⟨rfl, rfl⟩, trivial⟩

/-- A request for two bytes. -/
def twoBytes : Message := { Message.zero with fd := 1, data := 64, size := 2 }

/-- **A buffer of two bytes** gets three. -/
theorem small_buffer_overrun : ∃ t, fdLts.Reachable (FdState.init (fun _ => 0) [slash]) t ∧
    getFile t.v 1 = some { fOps := .ramfs, privateData := 0, fPos := 0 } ∧
    (t.v.ram.files 0).bytes = [1, 2, 3] ∧
    (sendRead { vfs := t.v, mem := fun _ => 0 } twoBytes).1.mem 66 = 3 ∧
    ¬ ReadsAll [1, 2, 3] { fOps := .ramfs, privateData := 0, fPos := 0 }
      { vfs := t.v, mem := fun _ => 0 } [twoBytes] := by
  obtain ⟨t, hrun, hfile, hbytes⟩ := three_bytes
  have hw : RamBounded (Files.mk t.v fun _ => 0).vfs := ramBounded_run hrun
  refine ⟨t, hrun, hfile, hbytes, ?_, ?_⟩
  · have hgot : [1, 2, 3] = ((t.v.ram.files 0).bytes.drop 0).take readBuf := by
      rw [hbytes]
      rfl
    rw [@sendRead_eq _ (Files.mk t.v fun _ => 0) twoBytes hw hfile rfl _ hgot]
    rfl
  · rw [readsAll_iff_sizesFit hw hfile rfl hbytes (List.forall_mem_singleton.2 rfl)]
    rintro ⟨⟨hleft, -⟩ | ⟨-, hsize | hsize⟩, -⟩
    · cases hleft
    · cases hsize
    · exact absurd hsize (by decide)

end OsArm
