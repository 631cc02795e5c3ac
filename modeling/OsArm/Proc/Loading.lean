import OsArm.Proc.Exec
import OsArm.Proc.Files

/-!
# Loading a program (`load_program`)

* `loadMessages` — `load_program` message by message, with the memory it loads into;
  `loadMessages_eq` says that on the file system it is `loadProgram`.
* `PlacesProgram`, `LoadsProgram` — it places the file it was asked for, and closes it again.
* `loads_never` — it never does the second: no message closes a descriptor.
* `places_iff` — it does the first if and only if no descriptor has been returned before and the
  file fits the buffer of `send_message`, since it reads from descriptor 0.
-/

namespace OsArm

/-! ## The three messages -/

/-- The first message of `load_program`. -/
def openRequest (path : Str) : Message :=
  { Message.zero with type := 1, path := some path, flags := 0 }

/-- The second one: the same message once it has been sent, with four fields set; `pc` is
`proc->ctx.pc`. -/
def readRequest (msg : Message) (pc : UInt64) : Message :=
  { msg with type := 2, fd := msg.status, data := pc, size := 4096 }

/-- `load_program`; the answer to its third message, `MSG_CLOSE`, is not looked at. -/
def loadMessages (w : Files) (pc : UInt64) (path : Str) : Except Halt (Files × Int) := do
  let (w, msg, r) ← sendOpen w (openRequest path)
  if r < 0 then return (w, -1)
  let (w, msg, r) := sendRead w (readRequest msg pc)
  if r < 0 then return (w, -1)
  let (w, _, _) := sendDefault w { msg with type := 4 }
  return (w, 0)

/-! ## What it is for -/

/-- The program is in place: `load_program` answers 0, reads from the descriptor its own `MSG_OPEN`
has returned, has put the first 4096 bytes of `c` at `pc` and nothing elsewhere, and has left every
other descriptor where it was. -/
structure PlacesProgram (c : List UInt8) (pc : UInt64) (path : Str) (w w' : Files) : Prop where
  answer : loadMessages w pc path = .ok (w', 0)
  reads : ∀ v msg r, sendOpen w (openRequest path) = .ok (v, msg, r) → (readRequest msg pc).fd = r
  placed : memcpyFrom w'.mem pc.toNat (min 4096 c.length) = c.take 4096
  outside : ∀ x, x < pc.toNat ∨ pc.toNat + min 4096 c.length ≤ x → w'.mem x = w.mem x
  others : ∀ k, k ≠ (vfsOpen w.vfs path).1 → getFile w'.vfs k = getFile w.vfs k

/-- **`load_program` loads the file it was asked for**: the program is in place, and no descriptor
is open that was not open before. -/
structure LoadsProgram (c : List UInt8) (pc : UInt64) (path : Str) (w w' : Files) : Prop where
  places : PlacesProgram c pc path w w'
  closed : ∀ k, getFile w.vfs k = none → getFile w'.vfs k = none

section Loading

variable {c : List UInt8} {file : VfsFile} {w w' : Files} {pc : UInt64} {path : Str} {v : Vfs}

theorem sendOpen_request {fd : Int} (hopen : vfsOpen w.vfs path = (fd, v)) :
    sendOpen w (openRequest path) =
      .ok ({ w with vfs := v }, { openRequest path with fd := fd }, fd) := by
  unfold sendOpen openRequest
  dsimp only
  rw [hopen]

/-- **`load_program`** once `MSG_OPEN` has returned a descriptor: the read goes to descriptor 0, and
nothing comes after it. -/
theorem loadMessages_opened (pc : UInt64) {fd : Int} (hopen : vfsOpen w.vfs path = (fd, v))
    (hfd : 0 ≤ fd) :
    ∃ msg, msg.fd = 0 ∧ msg.data = pc ∧
      loadMessages w pc path = .ok ((sendRead { w with vfs := v } msg).1,
        if (sendRead { w with vfs := v } msg).2.2 < 0 then -1 else 0) := by
  refine ⟨readRequest { openRequest path with fd := fd } pc, rfl, rfl, ?_⟩
  unfold loadMessages
  rw [sendOpen_request hopen, ok_bind]
  dsimp only
  rw [if_neg (Int.not_lt.2 hfd)]
  generalize sendRead _ _ = r
  obtain ⟨w', msg, ret⟩ := r
  dsimp only
  split <;> rfl

theorem sendRead_neg (w : Files) (msg : Message) :
    (sendRead w msg).2.2 < 0 ↔ (vfsRead w.vfs msg.fd readBuf).1 = none := by
  unfold sendRead
  obtain ⟨buf, v⟩ := vfsRead w.vfs msg.fd readBuf
  cases buf with
  | none => exact iff_of_true (show (-1 : Int) < 0 by decide) rfl
  | some buf =>
    refine iff_of_false ?_ (by simp)
    dsimp only
    split <;> exact Int.not_lt.2 (Int.natCast_nonneg _)

/-- On the file system it is `loadProgram`. -/
theorem loadMessages_eq (w : Files) (pc : UInt64) (path : Str) :
    ∃ mem, loadMessages w pc path =
      .ok ({ vfs := (loadProgram w.vfs path).2, mem := mem }, (loadProgram w.vfs path).1) := by
  obtain ⟨fd, v, hopen⟩ : ∃ fd v, vfsOpen w.vfs path = (fd, v) := ⟨_, _, rfl⟩
  by_cases hfd : fd < 0
  · refine ⟨w.mem, ?_⟩
    unfold loadMessages loadProgram sendOpen openRequest
    dsimp only
    rw [hopen, ok_bind]
    dsimp only
    rw [if_pos hfd, if_pos hfd]
    rfl
  · obtain ⟨msg, hmsg, -, hload⟩ := loadMessages_opened pc hopen (Int.not_lt.1 hfd)
    have hvfs := sendRead_vfs { w with vfs := v } msg
    have hneg := sendRead_neg { w with vfs := v } msg
    have hprogram : loadProgram w.vfs path =
        (if (vfsRead v 0 256).1 = none then -1 else 0, (vfsRead v 0 256).2) := by
      rw [loadProgram, hopen]
      dsimp only
      rw [if_neg hfd]
      obtain ⟨buf, v'⟩ := vfsRead v 0 256
      cases buf <;> rfl
    rw [hmsg] at hvfs hneg
    refine ⟨(sendRead { w with vfs := v } msg).1.mem, ?_⟩
    rw [hload, hprogram]
    simp only [hneg]
    rw [show (vfsRead v 0 256).2 = _ from hvfs.symm]
    rfl

/-! ## What stays open -/

/-- The descriptor that `MSG_OPEN` has returned is open when `load_program` is done. -/
theorem stays_open {r : Int} (hfd : 0 ≤ (vfsOpen w.vfs path).1)
    (hload : loadMessages w pc path = .ok (w', r)) :
    w.vfs.nextFd < maxFd ∧ getFile w'.vfs w.vfs.nextFd ≠ none := by
  rcases OpenCall.apply_spec w.vfs (.openPath path) with
    ⟨-, hfail, -⟩ | ⟨f, -, hroom, hret, htable, -⟩
  · rw [show (vfsOpen w.vfs path).1 = -1 from hfail] at hfd
    exact absurd hfd (by decide)
  · refine ⟨hroom, ?_⟩
    intro hclosed
    obtain ⟨msg, -, -, hload'⟩ :=
      loadMessages_opened pc (rfl : vfsOpen w.vfs path = (_, _)) hfd
    have hw' : (sendRead { w with vfs := (vfsOpen w.vfs path).2 } msg).1 = w' := by
      rw [hload'] at hload
      exact congrArg Prod.fst (Except.ok.inj hload)
    rw [getFile_natCast hroom, ← hw', sendRead_vfs] at hclosed
    have hobject := (vfsRead_objects (vfsOpen w.vfs path).2 msg.fd readBuf).1 w.vfs.nextFd
    rw [show (vfsOpen w.vfs path).2.fdTable = _ from htable] at hobject
    dsimp only at hobject hclosed
    rw [hclosed, if_pos rfl] at hobject
    cases hobject

/-- **`load_program` never closes what it has opened**, in every state a run of VFS calls reaches
and for every path that `vfs_open` can open: it never does all it is for. -/
theorem loads_never {m : ByteMem} {cwd : Str} {t : FdState}
    (hrun : fdLts.Reachable (FdState.init m cwd) t) (hfd : 0 ≤ (vfsOpen t.v path).1)
    (c : List UInt8) (pc : UInt64) (mem : ByteMem) (w' : Files) :
    ¬ LoadsProgram c pc path { vfs := t.v, mem := mem } w' := by
  intro h
  obtain ⟨hroom, hopen⟩ := stays_open (w := { vfs := t.v, mem := mem }) hfd h.places.answer
  refine hopen (h.closed _ ?_)
  rw [getFile_natCast hroom]
  exact (fdInv_run hrun).above _ (Nat.le_refl _)

/-- A file, with the descriptor it was created with still open. -/
theorem created_file : ∃ t, fdLts.Reachable (FdState.init (fun _ => 0) [slash]) t ∧
    (vfsOpen t.v (tmpSlash ++ str ['a'])).1 = 1 ∧ t.v.nextFd = 1 ∧ getFile t.v 1 = none :=
  ⟨_, (Lts.Reachable.refl _).tail (a := .opening (.create (tmpSlash ++ str ['a']))) rfl,
    rfl, rfl, rfl⟩

/-- The empty program is not loaded either. -/
theorem loads_never_empty : ∃ t, fdLts.Reachable (FdState.init (fun _ => 0) [slash]) t ∧
    ∀ w', ¬ LoadsProgram [] processLoadAddr (tmpSlash ++ str ['a'])
      { vfs := t.v, mem := fun _ => 0 } w' := by
  obtain ⟨t, hrun, hfd, -⟩ := created_file
  exact ⟨t, hrun, loads_never hrun (by rw [hfd]; decide) [] processLoadAddr fun _ => 0⟩

/-- **A file whose first descriptor is open**: `load_program` opens a second one and leaves it
open. -/
theorem second_descriptor_left_open : ∃ t, fdLts.Reachable (FdState.init (fun _ => 0) [slash]) t ∧
    (vfsOpen t.v (tmpSlash ++ str ['a'])).1 = 1 ∧ getFile t.v 1 = none ∧
    ∀ w', ¬ LoadsProgram [] 64 (tmpSlash ++ str ['a']) { vfs := t.v, mem := fun _ => 0 } w' := by
  obtain ⟨t, hrun, hfd, hnext, hnone⟩ := created_file
  refine ⟨t, hrun, hfd, hnone, ?_⟩
  intro w' h
  have hopen := (stays_open (w := { vfs := t.v, mem := fun _ => 0 }) (by rw [hfd]; decide)
    h.places.answer).2
  rw [hnext] at hopen
  exact hopen (h.closed 1 hnone)

/-! ## What is placed -/

/-- A RAMFS file that `vfs_open` opens is put into the next entry, at its beginning. -/
theorem vfsOpen_ramfs {resolved : Str} {i : Nat}
    (htarget : openTarget v.ns path = (.ramfs, resolved)) (hused : findUsed v.ram resolved = some i)
    (hfd : 0 ≤ (vfsOpen v path).1) :
    ∃ v', vfsOpen v path = ((v.nextFd : Int), v') ∧ v'.ram = v.ram ∧
      v'.fdTable = fun k => if k = v.nextFd then
        some { fOps := .ramfs, privateData := i, fPos := 0 } else v.fdTable k := by
  have hopen : fsOpen v path = ((ramfsOpen v.heap v.ram resolved).1,
      { v with heap := (ramfsOpen v.heap v.ram resolved).2 }) := by
    unfold fsOpen
    rw [htarget]
  rw [vfsOpen_eq, hopen, ramfsOpen, hused] at hfd ⊢
  dsimp only at hfd ⊢
  cases halloc : kalloc v.heap sizeofVfsFile with
  | none =>
    rw [halloc] at hfd
    have hneg : (0 : Int) ≤ -1 := hfd
    omega
  | some r =>
    rw [halloc] at hfd
    dsimp only [withFd] at hfd ⊢
    by_cases hroom : v.nextFd < maxFd
    · exact ⟨_, allocFd_of_lt (v := { v with heap := r.2 }) hroom, rfl, rfl⟩
    · rw [allocFd_of_le (v := { v with heap := r.2 }) (Nat.not_lt.1 hroom)] at hfd
      have hneg : (0 : Int) ≤ -1 := hfd
      omega

/-- **The first descriptor** is the one that is read: up to 256 bytes of the file are placed. -/
theorem loadMessages_first {i : Nat} (hw : RamBounded v) (hopen : vfsOpen w.vfs path = (0, v))
    (hfile : v.fdTable 0 = some { fOps := .ramfs, privateData := i, fPos := 0 })
    (hc : (v.ram.files i).bytes = c) :
    ∃ f, loadMessages w pc path = .ok (Files.mk (v.setFile 0 f)
      (memcpyTo w.mem pc.toNat (c.take readBuf) (c.take readBuf).length), 0) := by
  obtain ⟨msg, hmsg, hdata, hload⟩ := loadMessages_opened pc hopen (Int.le_refl 0)
  have hget : getFile v msg.fd = some { fOps := .ramfs, privateData := i, fPos := 0 } := by
    rw [hmsg]
    exact (getFile_natCast (k := 0) (by decide)).trans hfile
  have hread := sendRead_eq (w := { w with vfs := v }) hw hget rfl rfl
  rw [show (Files.mk v w.mem).vfs.ram.files i = v.ram.files i from rfl, hc, List.drop_zero, hmsg,
    hdata] at hread
  rw [hload, hread]
  dsimp only
  rw [if_neg (Int.not_lt.2 (Int.natCast_nonneg _))]
  exact ⟨_, rfl⟩

/-- **What is placed.**  In every state a run of VFS calls reaches and for every path of a RAMFS
file that `vfs_open` can open, with the content `c`: whatever the memory holds, the program is put
in place if and only if no descriptor has been returned before and `c` fits the buffer of
`send_message`. -/
theorem places_iff {m : ByteMem} {cwd resolved : Str} {t : FdState} {i : Nat}
    (hrun : fdLts.Reachable (FdState.init m cwd) t)
    (htarget : openTarget t.v.ns path = (.ramfs, resolved))
    (hused : findUsed t.v.ram resolved = some i) (hfd : 0 ≤ (vfsOpen t.v path).1)
    (hc : (t.v.ram.files i).bytes = c) :
    (∀ mem, ∃ w', PlacesProgram c pc path { vfs := t.v, mem := mem } w') ↔
      t.v.nextFd = 0 ∧ c.length ≤ readBuf := by
  obtain ⟨v, hopen, hram, htable⟩ := vfsOpen_ramfs htarget hused hfd
  have hbounded : RamBounded v := by
    have hnext := (ramBounded_run hrun).opening (.openPath path)
    rwa [show (OpenCall.openPath path).apply t.v = _ from hopen] at hnext
  have hfirst (hzero : t.v.nextFd = 0) (mem : ByteMem) :
      ∃ f, loadMessages { vfs := t.v, mem := mem } pc path = .ok (Files.mk (v.setFile 0 f)
        (memcpyTo mem pc.toNat (c.take readBuf) (c.take readBuf).length), 0) := by
    rw [hzero] at hopen htable
    exact loadMessages_first (w := { vfs := t.v, mem := mem }) hbounded hopen
      (by rw [htable]; rfl) (by rw [hram]; exact hc)
  constructor
  · intro h
    -- what lies behind the buffer is not what `c` has there
    obtain ⟨w', hw'⟩ := h fun _ => c.getD readBuf 0 + 1
    have hzero : t.v.nextFd = 0 := by
      have hreads : (0 : Int) = t.v.nextFd := hw'.reads _ _ _ (sendOpen_request hopen)
      omega
    refine ⟨hzero, ?_⟩
    by_contra hlen
    obtain ⟨f, hload⟩ := hfirst hzero fun _ => c.getD readBuf 0 + 1
    have heq := hw'.answer
    rw [hload] at heq
    have hw := congrArg Prod.fst (Except.ok.inj heq)
    have hplaced := congrArg (·[readBuf]?) hw'.placed
    have hin : readBuf < min 4096 c.length := Nat.lt_min.2 ⟨by decide, Nat.not_le.1 hlen⟩
    have hbehind : (c.take readBuf).length = readBuf := by
      rw [List.length_take, Nat.min_eq_left (Nat.le_of_not_le hlen)]
    have hmem : w'.mem (pc.toNat + readBuf) = c.getD readBuf 0 + 1 := by
      rw [show w' = _ from hw.symm]
      dsimp only
      rw [memcpyTo_eq, ByteMem.blit_outside (by omega)]
    rw [getElem?_memcpyFrom, if_pos hin, hmem, List.getElem?_take_of_lt (by decide),
      List.getElem?_eq_getElem (Nat.not_le.1 hlen), List.getD_eq_getElem _ _ (Nat.not_le.1 hlen)]
      at hplaced
    simp at hplaced
  · rintro ⟨hzero, hlen⟩ mem
    obtain ⟨f, hload⟩ := hfirst hzero mem
    have hlen' : c.length ≤ 4096 := Nat.le_trans hlen (by decide)
    rw [List.take_of_length_le hlen] at hload
    refine ⟨_, hload, ?_, ?_, ?_, ?_⟩
    · intro u msg r hsend
      rw [sendOpen_request hopen] at hsend
      cases hsend
      rw [hzero]
      rfl
    · rw [Nat.min_eq_right hlen', List.take_of_length_le hlen', memcpyFrom_eq_iff]
      intro k hk
      dsimp only
      rw [memcpyTo_eq, ByteMem.blit_add hk]
    · intro x hx
      rw [Nat.min_eq_right hlen'] at hx
      dsimp only
      rw [memcpyTo_eq, ByteMem.blit_outside hx]
    · intro k hk
      rw [show (vfsOpen t.v path).1 = 0 by rw [hopen, hzero]; rfl] at hk
      unfold getFile
      split
      · rfl
      · have hne : k.toNat ≠ 0 := by omega
        dsimp only [Vfs.setFile]
        rw [Int.toNat_zero, if_neg hne, htable, hzero]
        exact if_neg hne

end Loading

end OsArm
