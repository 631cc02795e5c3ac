import OsArm.Proc.Queues
import OsArm.Proc.Switch

/-!
# Programs (`exec_process`, `load_program`, `handle_exec_message`)

The two ways to set the context of the current process up for a program, the
kernel with its file system, and what all calls come down to.

* `Update` — the elementary stores of the process code; `apply_updates` — a call
  is a sequence of them, all on the records of the current process, of a process
  it creates, or on the scheduling state of others.
* `Update.ctx`, `ctx_of_apply` — the context of a process that neither runs nor is
  being created is not written.
-/

namespace OsArm

/-! ## The context of a program -/

/-- `PROCESS_STACK_TOP`. -/
def processStackTop : UInt64 := 0x40000000

/-- `PROCESS_LOAD_ADDR`. -/
def processLoadAddr : UInt64 := 0x40100000

namespace Context

/-- `ctx.pc`. -/
def pc (c : Context) : UInt64 := c.words 0

/-- `ctx.sp`. -/
def sp (c : Context) : UInt64 := c.words 1

/-- `ctx.x[i]`. -/
def x (c : Context) (i : Fin 31) : UInt64 := c.words (i.natAdd 3)

/-- The loop that clears `x`. -/
def clearX (c : Context) : Context where
  words i := if i < 3 then c.words i else 0

def setX1 (c : Context) (v : UInt64) : Context := { words := Function.update c.words 4 v }

end Context

/-- The context `handle_exec_message` leaves; `argc` is the number of pointers
before the first `NULL` in `argv`. -/
def execContext (c : Context) (argc : Nat) (msg : Message) : Context :=
  let c := ((c.setPc msg.entry).setSp processStackTop).clearX
  if msg.argv ≠ 0 then (c.setX0 (UInt64.ofNat argc)).setX1 msg.argv else c

/-- What `handle_exec_message` stores in the current process. -/
def setUpExec (s : Procs) (current : ProcPtr) (argc : Nat) (msg : Message) : Procs :=
  s.modify current fun p => { p with ctx := execContext p.ctx argc msg }

/-- `handle_exec_message`, which is also `send_message` with `MSG_EXEC`. -/
def handleExecMessage (s : Procs) (argc : Nat) (msg : Message) : Except Halt (Procs × Int) := do
  if msg.path.isNone then return (s, -1)
  let current ← s.getCurrentProcess
  return (setUpExec s current argc msg, 0)

/-- `load_program`.  `MSG_OPEN` leaves the descriptor in `fd` but the program is
read from the descriptor in `status`, which is still zero; `MSG_CLOSE` is not a
message `send_message` knows.  The bytes read go to the address in `ctx.pc`, where
the model has no memory. -/
def loadProgram (v : Vfs) (path : Str) : Int × Vfs :=
  let (fd, v) := vfsOpen v path
  if fd < 0 then (-1, v)
  else
    match vfsRead v 0 256 with
    | (none, v) => (-1, v)
    | (some _, v) => (0, v)

/-- What `exec_process` stores in the current process; the stack is that of the
last slot taken. -/
def setUpProgram (s : Procs) (current : ProcPtr) : Procs :=
  s.modify current fun p =>
    { p with
      sp := s.processStacks + UInt64.ofNat (s.processCount * processStackSize)
      ctx := p.ctx.setPc processLoadAddr }

/-! ## The kernel -/

/-- The processes and the file system; the heap they share is that of `procs`. -/
structure Kernel where
  procs : Procs
  vfs : Vfs

/-- `exec_process`. -/
def execProcess (k : Kernel) (path : Str) : Except Halt (Kernel × Int) := do
  let current ← k.procs.getCurrentProcess
  let (ret, vfs) := loadProgram { k.vfs with heap := k.procs.heap } path
  let procs := { k.procs with heap := vfs.heap }
  if ret < 0 then return ({ procs := procs, vfs := vfs }, -1)
  return ({ procs := setUpProgram procs current, vfs := vfs }, 0)

/-- A call of the process code, or one that sets up a program. -/
inductive KernelCall
  | proc (call : ProcCall)
  | handleExecMessage (argc : Nat) (msg : Message)
  | execProcess (path : Str)

namespace KernelCall

/-- The state a call leaves. -/
def apply (k : Kernel) : KernelCall → Except Halt Kernel
  | proc call => (call.apply k.procs).map fun procs => { k with procs := procs }
  | handleExecMessage argc msg =>
    (OsArm.handleExecMessage k.procs argc msg).map fun r => { k with procs := r.1 }
  | execProcess path => (OsArm.execProcess k path).map (·.1)

end KernelCall

/-- The kernel as a transition system. -/
def kernelLts : Lts Kernel KernelCall where
  step k call l := call.apply k = .ok l

/-! ## What the calls come down to -/

/-- `create_process` after its stores into the new record. -/
def linkChild (s : Procs) (new current : ProcPtr) : Procs :=
  { setUpChild s new current with
    processList := some new
    processCount := s.processCount + 1
    nextPid := s.nextPid + 1 }

/-- One store, or a few that belong together, by a call of the process `c` that
creates `new`. -/
inductive Update (c : ProcPtr) (new : Option ProcPtr) : Procs → Procs → Prop
  | state (s : Procs) (p : ProcPtr) (st : ProcState) : Update c new s (s.setState p st)
  | msgBlocked (s : Procs) (p : ProcPtr) (b : Int) : Update c new s (s.setMsgBlocked p b)
  | queue (s : Procs) (p : ProcPtr) (q : MessageQueue) : Update c new s (s.setQueue p q)
  | exited (s : Procs) (status : Int) : Update c new s (markExited s c status)
  | current (s : Procs) (p : ProcPtr) : Update c new s (s.setCurrent p)
  | switch (s : Procs) (p : ProcPtr) : Update c new s (contextSwitch s c p)
  | child (s : Procs) (p : ProcPtr) : new = some p → Update c new s (linkChild s p c)
  | fork (s : Procs) (p : ProcPtr) (entry : UInt64) :
      new = some p → Update c new s (setUpFork s p c entry)
  | record (s : Procs) (entry : UInt64) :
      new = (kalloc s.heap sizeofProcess).map (fun r => .heap r.1) →
      Update c new s (processCreate s entry).1
  | registers (s : Procs) (cpu : Cpu) : Update c new s { s with cpu := cpu }

section Updates

variable {s t : Procs} {c n : ProcPtr} {new : Option ProcPtr}

open Relation (ReflTransGen)

/-- The current process is what `get_current_process` returns. -/
theorem ok_of_current {β : Type} {f : ProcPtr → Except Halt β} {r : β}
    (hc : s.currentProcess = some c) (h : s.getCurrentProcess >>= f = .ok r) : f c = .ok r := by
  rwa [Procs.getCurrentProcess_eq hc] at h

theorem switchTo_updates : ReflTransGen (Update c new) s (switchTo s c n) := by
  have hpre : ReflTransGen (Update c new) (s.setState n .running)
      (preempt (s.setState n .running) c) := by
    rw [preempt]
    split
    · exact .single (.state _ c .ready)
    · exact .refl
  have hrun : ReflTransGen (Update c new) s (preempt (s.setState n .running) c) :=
    hpre.head (.state s n .running)
  exact (hrun.tail (.current _ n)).tail (.switch _ n)

/-- A call of `schedule` that returns has switched to a process that was ready. -/
theorem schedule_ok (h : schedule s = .ok t) :
    ∃ c n, s.currentProcess = some c ∧ t = switchTo s c n := by
  obtain ⟨found, -, h⟩ := ok_of_bind h
  cases found with
  | none => cases h
  | some n =>
    obtain ⟨c, hc, h⟩ := ok_of_bind h
    refine ⟨c, n, ?_, (Except.ok.inj h).symm⟩
    rw [Procs.getCurrentProcess] at hc
    cases hcur : s.currentProcess with
    | none => simp [hcur] at hc
    | some d =>
      rw [hcur] at hc
      rw [Except.ok.inj hc]

theorem schedule_updates (hc : s.currentProcess = some c) (h : schedule s = .ok t) :
    ReflTransGen (Update c new) s t := by
  obtain ⟨d, n, hd, rfl⟩ := schedule_ok h
  rw [hc] at hd
  rw [← Option.some.inj hd]
  exact switchTo_updates

theorem blockCurrent_updates (hc : s.currentProcess = some c) (h : blockCurrent s c = .ok t) :
    ReflTransGen (Update c new) s t := by
  rw [blockCurrent] at h
  exact (schedule_updates (s := s.setState c .blocked) hc h).head (.state s c .blocked)

/-- `create_process` takes the next slot. -/
theorem createProcess_ok (hc : s.currentProcess = some c) (h : createProcess s = .ok (t, n)) :
    n = .slot s.processCount ∧ t = linkChild s n c := by
  have h := ok_of_current hc h
  dsimp only at h
  split at h
  · cases h
  · cases h
    exact ⟨rfl, rfl⟩

theorem wake_updates (parent : Option ProcPtr) : ReflTransGen (Update c new) s (wake s parent) := by
  cases parent with
  | none => exact .refl
  | some p =>
    rw [wake]
    split
    · exact .single (.state s p .ready)
    · exact .refl

/-- **What a call comes down to.** -/
theorem apply_updates {call : ProcCall} (hc : s.currentProcess = some c)
    (h : call.apply s = .ok t) : ReflTransGen (Update c (call.creates s)) s t := by
  cases call with
  | createProcess =>
    obtain ⟨⟨u, n⟩, hu, rfl⟩ := ok_of_map h
    obtain ⟨rfl, rfl⟩ := createProcess_ok hc hu
    exact .single (.child s _ rfl)
  | sendFork msg =>
    obtain ⟨r, hr, rfl⟩ := ok_of_map h
    obtain ⟨⟨u, n⟩, hu, hr⟩ := ok_of_bind hr
    cases hr
    obtain ⟨rfl, rfl⟩ := createProcess_ok hc hu
    exact .single (.child s _ rfl)
  | handleForkMessage msg =>
    obtain ⟨r, hr, rfl⟩ := ok_of_map h
    obtain ⟨⟨u, n⟩, hu, hr⟩ := ok_of_bind (ok_of_current hc hr)
    cases hr
    obtain ⟨rfl, rfl⟩ := createProcess_ok hc hu
    exact (ReflTransGen.single (.child s _ rfl)).tail (.fork _ _ msg.entry rfl)
  | processCreate entry =>
    rw [ProcCall.apply] at h
    rw [← Except.ok.inj h]
    refine .single (.record s entry ?_)
    rw [ProcCall.creates]
  | schedule => exact schedule_updates hc h
  | waitForChild =>
    exact blockCurrent_updates hc (ok_of_current hc h)
  | sendWait msg =>
    obtain ⟨r, hr, rfl⟩ := ok_of_map h
    obtain ⟨found, -, hr⟩ := ok_of_bind (ok_of_current hc hr)
    cases found with
    | some p =>
      cases hr
      exact .refl
    | none =>
      obtain ⟨u, hu, hr⟩ := ok_of_bind hr
      cases hr
      exact blockCurrent_updates hc hu
  | sendWaitResumed caller msg =>
    obtain ⟨r, -, rfl⟩ := ok_of_map h
    exact .refl
  | handleWaitMessage msg =>
    obtain ⟨r, hr, rfl⟩ := ok_of_map h
    obtain ⟨found, -, hr⟩ := ok_of_bind (ok_of_current hc hr)
    cases found with
    | some p =>
      cases hr
      exact .single (.state s p .dead)
    | none =>
      obtain ⟨u, hu, hr⟩ := ok_of_bind hr
      cases hr
      exact blockCurrent_updates hc hu
  | receiveMessage msg =>
    obtain ⟨r, hr, rfl⟩ := ok_of_map h
    have hr := ok_of_current hc hr
    dsimp only at hr
    split at hr
    · split at hr
      · obtain ⟨u, hu, hr⟩ := ok_of_bind hr
        cases hr
        exact (schedule_updates (s := s.setMsgBlocked c 1) hc hu).head (.msgBlocked s c 1)
      · cases hr
        exact .refl
    · cases hr
      exact .single (.queue s c _)
  | exitProcess status =>
    obtain ⟨parent, -, h⟩ := ok_of_bind (ok_of_current hc h)
    have hcur : (wake (markExited s c status) parent).currentProcess = some c := by
      rw [wake_currentProcess]
      exact hc
    exact ((wake_updates parent).head (.exited s status)).trans (schedule_updates hcur h)
  | compute cpu =>
    cases h
    exact .single (.registers s cpu)

/-! ## What the calls leave alone -/

/-- A field of a record that the scheduler does not write. -/
structure Steady {β : Type} (g : Process → β) : Prop where
  state : ∀ r st, g { r with state := st } = g r
  msgBlocked : ∀ r b, g { r with msgBlocked := b } = g r
  msgQueue : ∀ r q, g { r with msgQueue := q } = g r

theorem linkChild_proc_of_ne {p : ProcPtr} (h : p ≠ n) : (linkChild s n c).proc p = s.proc p :=
  Function.update_of_ne h ..

theorem processCreate_proc_of_ne {p : ProcPtr} {entry : UInt64}
    (h : (kalloc s.heap sizeofProcess).map (fun r => ProcPtr.heap r.1) ≠ some p) :
    (processCreate s entry).1.proc p = s.proc p := by
  unfold processCreate
  cases halloc : kalloc s.heap sizeofProcess with
  | none => rfl
  | some r =>
    rw [halloc] at h
    have hne : p ≠ .heap r.1 := fun heq => h (congrArg some heq.symm)
    exact Function.update_of_ne hne ..

/-- From `s` to `t` the process `c` has forked: the next slot is a ready child of it with the next
pid and the stack of its slot, and the other records are as they were. -/
structure Forked (c : ProcPtr) (s t : Procs) : Prop where
  current : t.currentProcess = s.currentProcess
  state : (t.proc (.slot s.processCount)).state = .ready
  parentPid : (t.proc (.slot s.processCount)).parentPid = (s.proc c).pid
  pid : (t.proc (.slot s.processCount)).pid = s.nextPid
  sp : (t.proc (.slot s.processCount)).sp = s.stackTop s.processCount
  others : ∀ p ≠ .slot s.processCount, t.proc p = s.proc p

theorem forked_linkChild (s : Procs) (c : ProcPtr) :
    Forked c s (linkChild s (.slot s.processCount) c) where
  current := rfl
  state := by simp [linkChild, setUpChild, Procs.modify]
  parentPid := by simp [linkChild, setUpChild, Procs.modify]
  pid := by simp [linkChild, setUpChild, Procs.modify]
  sp := by simp [linkChild, setUpChild, Procs.modify]
  others _ hp := linkChild_proc_of_ne hp

/-- What `handle_fork_message` stores besides leaves the child a child. -/
theorem Forked.setUpFork (h : Forked c s t) (hne : c ≠ .slot s.processCount) (entry : UInt64) :
    Forked c s (setUpFork t (.slot s.processCount) c entry) where
  current := h.current
  state := by simp [OsArm.setUpFork, Procs.modify]
  parentPid := by
    rw [OsArm.setUpFork, Procs.modify_proc_self, h.others c hne]
  pid := by
    rw [← h.pid]
    exact Procs.modify_field (·.pid) fun _ => rfl
  sp := by
    rw [← h.sp]
    exact Procs.modify_field (·.sp) fun _ => rfl
  others p hp := (Procs.modify_proc_of_ne hp).trans (h.others p hp)

/-- **The calls that fork** all do so. -/
theorem forked_of_apply {call : ProcCall} (hc : s.currentProcess = some c)
    (hne : c ≠ .slot s.processCount) (hforks : call.forks = true) (h : call.apply s = .ok t) :
    Forked c s t := by
  cases call with
  | createProcess =>
    obtain ⟨⟨u, n⟩, hu, rfl⟩ := ok_of_map h
    obtain ⟨rfl, rfl⟩ := createProcess_ok hc hu
    exact forked_linkChild s c
  | sendFork msg =>
    obtain ⟨r, hr, rfl⟩ := ok_of_map h
    obtain ⟨⟨u, n⟩, hu, hr⟩ := ok_of_bind hr
    cases hr
    obtain ⟨rfl, rfl⟩ := createProcess_ok hc hu
    exact forked_linkChild s c
  | handleForkMessage msg =>
    obtain ⟨r, hr, rfl⟩ := ok_of_map h
    obtain ⟨⟨u, n⟩, hu, hr⟩ := ok_of_bind (ok_of_current hc hr)
    cases hr
    obtain ⟨rfl, rfl⟩ := createProcess_ok hc hu
    exact (forked_linkChild s c).setUpFork hne msg.entry
  | _ => cases hforks

/-- The record of a process that exists changes by an exit or a switch of the
process itself only, in the fields an exit and a switch write. -/
theorem Update.field {β : Type} {g : Process → β} {p : ProcPtr} (hg : Steady g)
    (hexit : c ≠ p ∨ ∀ r st e, g { r with state := st, exitStatus := e } = g r)
    (hctx : c ≠ p ∨ ∀ r x, g { r with ctx := x } = g r) (hnew : new ≠ some p)
    (h : Update c new s t) : g (t.proc p) = g (s.proc p) := by
  cases h with
  | state q st => exact Procs.modify_field g fun r => hg.state r st
  | msgBlocked q b => exact Procs.modify_field g fun r => hg.msgBlocked r b
  | queue q queue => exact Procs.modify_field g fun r => hg.msgQueue r queue
  | exited status =>
    rcases hexit with hne | hexit
    · exact congrArg g (Procs.modify_proc_of_ne hne.symm)
    · exact Procs.modify_field g fun r => hexit r .zombie status
  | current q => rfl
  | switch q =>
    rcases hctx with hne | hctx
    · show g ((s.modify c fun q => { q with ctx := saveContext s.cpu q.ctx }).proc p) = _
      rw [Procs.modify_proc_of_ne hne.symm]
    · exact contextSwitch_field g hctx
  | child q hq =>
    have hne : p ≠ q := fun heq => hnew (heq ▸ hq)
    exact congrArg g (linkChild_proc_of_ne hne)
  | fork q entry hq =>
    have hne : p ≠ q := fun heq => hnew (heq ▸ hq)
    exact congrArg g (Procs.modify_proc_of_ne hne)
  | record entry hq => exact congrArg g (processCreate_proc_of_ne (hq ▸ hnew))
  | registers cpu => rfl

/-- The same for a whole call. -/
theorem field_of_apply {β : Type} {g : Process → β} {p : ProcPtr} {call : ProcCall} (hg : Steady g)
    (hexit : c ≠ p ∨ ∀ r st e, g { r with state := st, exitStatus := e } = g r)
    (hctx : c ≠ p ∨ ∀ r x, g { r with ctx := x } = g r) (hnew : call.creates s ≠ some p)
    (hc : s.currentProcess = some c) (h : call.apply s = .ok t) : g (t.proc p) = g (s.proc p) := by
  have hupdates := apply_updates hc h
  clear h
  induction hupdates with
  | refl => rfl
  | tail _ hlast ih => rw [hlast.field hg hexit hctx hnew, ih]

/-- **Contexts.**  C code writes the context of the running process and of a process
it creates, and no other. -/
theorem ctx_of_apply {p : ProcPtr} {call : ProcCall} (hc : s.currentProcess = some c)
    (hne : c ≠ p) (hnew : call.creates s ≠ some p) (h : call.apply s = .ok t) :
    (t.proc p).ctx = (s.proc p).ctx :=
  field_of_apply (g := (·.ctx)) ⟨fun _ _ => rfl, fun _ _ => rfl, fun _ _ => rfl⟩
    (.inl hne) (.inl hne)
    hnew hc h

end Updates

/-! ## The table under every call -/

/-- Later in the heap, and within it. -/
def HeapGrows (h h' : Heap) : Prop := h.pos ≤ h'.pos ∧ h'.pos ≤ heapSize

theorem ramfsOpen_heap {h : Heap} (hheap : h.pos ≤ heapSize) (ram : RamFs) (path : Str) :
    HeapGrows h (ramfsOpen h ram path).2 := by
  unfold ramfsOpen
  cases findUsed ram path with
  | none => exact ⟨Nat.le_refl _, hheap⟩
  | some i =>
    cases halloc : kalloc h sizeofVfsFile with
    | none => exact ⟨Nat.le_refl _, hheap⟩
    | some r => exact kalloc_grows hheap (by simp [sizeofVfsFile]) halloc

theorem abyssfsOpen_heap {h : Heap} (hheap : h.pos ≤ heapSize) (path : Str) :
    HeapGrows h (abyssfsOpen h path).2 := by
  unfold abyssfsOpen
  cases halloc : kalloc h sizeofVfsFile with
  | none => exact ⟨Nat.le_refl _, hheap⟩
  | some r => exact kalloc_grows hheap (by simp [sizeofVfsFile]) halloc

theorem vfsOpen_heap {v : Vfs} (hheap : v.heap.pos ≤ heapSize) (path : Str) :
    HeapGrows v.heap (vfsOpen v path).2.heap := by
  unfold vfsOpen
  obtain ⟨fs, resolved⟩ := openTarget v.ns path
  cases fs with
  | ramfs =>
    have h := ramfsOpen_heap hheap v.ram resolved
    dsimp only
    cases (ramfsOpen v.heap v.ram resolved).1 with
    | none => exact h
    | some file =>
      dsimp only
      rw [allocFd]
      split <;> exact h
  | abyssfs =>
    have h := abyssfsOpen_heap hheap resolved
    dsimp only
    cases (abyssfsOpen v.heap resolved).1 with
    | none => exact h
    | some file =>
      dsimp only
      rw [allocFd]
      split <;> exact h

theorem vfsRead_heap (v : Vfs) (fd : Int) (count : Nat) : (vfsRead v fd count).2.heap = v.heap := by
  unfold vfsRead
  cases getFile v fd with
  | none => rfl
  | some file =>
    dsimp only
    cases file.fOps <;> rfl

/-- Reading a program takes what it takes from the heap. -/
theorem loadProgram_heap {v : Vfs} (hheap : v.heap.pos ≤ heapSize) (path : Str) :
    HeapGrows v.heap (loadProgram v path).2.heap := by
  have hopen := vfsOpen_heap hheap path
  rw [loadProgram]
  dsimp only
  split
  · exact hopen
  · have hread := vfsRead_heap (vfsOpen v path).2 0 256
    split
    · next heq =>
      rw [heq] at hread
      rwa [hread]
    · next heq =>
      rw [heq] at hread
      rwa [hread]

section Table

variable {ps : List ProcPtr} {s : Procs} {k l : Kernel}

/-- The file system takes a piece of the heap. -/
theorem Table.setHeap {heap : Heap} (h : Table ps s) (hheap : HeapGrows s.heap heap) :
    Table ps { s with heap := heap } := by
  refine ⟨?_, h.running⟩
  have hl := h.listed
  refine ⟨hl.linked, hl.pid_lt, hl.pid_inj, hl.slot_lt, ?_, hl.count_le, hheap.2, ?_⟩
  · intro a ha
    exact Nat.lt_of_lt_of_le (hl.heap_lt a ha) hheap.1
  · exact Nat.le_trans hl.length_le (Nat.add_le_add_left hheap.1 _)

theorem Table.setUpExec (h : Table ps s) (c : ProcPtr) (argc : Nat) (msg : Message) :
    Table ps (setUpExec s c argc msg) := by
  refine h.of_sameLinks (.modify (fun _ => rfl) fun _ => rfl) rfl ?_
  intro q _
  have hstate : ((OsArm.setUpExec s c argc msg).proc q).state = (s.proc q).state :=
    Procs.modify_field (·.state) fun _ => rfl
  rw [hstate]

theorem Table.setUpProgram (h : Table ps s) (c : ProcPtr) : Table ps (setUpProgram s c) := by
  refine h.of_sameLinks (.modify (fun _ => rfl) fun _ => rfl) rfl ?_
  intro q _
  have hstate : ((OsArm.setUpProgram s c).proc q).state = (s.proc q).state :=
    Procs.modify_field (·.state) fun _ => rfl
  rw [hstate]

/-- The process a call of the kernel creates. -/
def KernelCall.creates (k : Kernel) : KernelCall → Option ProcPtr
  | proc call => call.creates k.procs
  | _ => none

/-- **One step** of the kernel keeps the table. -/
theorem Table.step {call : KernelCall} (h : Table ps k.procs) (hstep : call.apply k = .ok l) :
    Table ((call.creates k).toList ++ ps) l.procs := by
  cases call with
  | proc call =>
    obtain ⟨t, ht, rfl⟩ := ok_of_map hstep
    exact ((h.apply call).1 t ht).table
  | handleExecMessage argc msg =>
    obtain ⟨r, hr, rfl⟩ := ok_of_map hstep
    rw [handleExecMessage] at hr
    split at hr
    · cases hr
      exact h
    · obtain ⟨c, -, hr⟩ := ok_of_bind hr
      cases hr
      exact h.setUpExec c argc msg
  | execProcess path =>
    obtain ⟨r, hr, rfl⟩ := ok_of_map hstep
    obtain ⟨c, -, hr⟩ := ok_of_bind hr
    have hheap := loadProgram_heap (v := { k.vfs with heap := k.procs.heap }) h.listed.heap_le path
    dsimp only at hr
    split at hr
    · cases hr
      exact h.setHeap hheap
    · cases hr
      exact (h.setHeap hheap).setUpProgram c

/-- And so does every run. -/
theorem Table.kernelRun {tr : List KernelCall} (h : Table ps k.procs)
    (hrun : kernelLts.Run k tr l) :
    ∃ ps', Table ps' l.procs := by
  refine hrun.invariant (P := fun l => ∃ ps', Table ps' l.procs) ?_ ⟨ps, h⟩
  intro k call l hk hstep
  obtain ⟨ps', htable⟩ := hk
  exact ⟨_, htable.step hstep⟩

end Table

end OsArm
