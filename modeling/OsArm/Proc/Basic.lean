import OsArm.Lib.Linked
import OsArm.Vfs.Basic

/-!
# Processes and messages (`process.c`, `message.c`, `context_switch.S`)

The process records lie in the array `processes` or on the heap and are linked
into `process_list`.  A call that runs into something it never returns from ends
in a `Halt`: the idle loop of `schedule`, a `NULL` pointer, a slot behind the
array, a list that never ends.

A call that gives the processor away is modelled up to the switch, which is
where its effect on the table ends; what it does when its process runs again is
said with each.  Console output is left out, and so are `cwd` and the queue
`ready_queue`, which these functions do not touch.
-/

namespace OsArm

/-! ## Records -/

/-- `MAX_PROCESSES`. -/
def maxProcesses : Nat := 4

/-- `PROCESS_STACK_SIZE`. -/
def processStackSize : Nat := 4096

/-- `MAX_MESSAGES`. -/
def maxMessages : Nat := 32

/-- `enum process_state`. -/
inductive ProcState
  | ready
  | running
  | blocked
  | zombie
  | dead
  deriving DecidableEq

/-- A `struct process *`: `processes[i]`, or the record `kalloc` has placed at an
offset of the heap. -/
inductive ProcPtr
  | slot (i : Nat)
  | heap (a : Nat)
  deriving DecidableEq

/-- `context_t`: `pc`, `sp`, `lr` and `x[31]`, each 8 bytes. -/
structure Context where
  words : Fin 34 → UInt64

namespace Context

/-- Words are written as numerals. -/
instance wordsNeZero : NeZero 34 := ⟨by decide⟩

def setPc (c : Context) (v : UInt64) : Context := { words := Function.update c.words 0 v }

def setSp (c : Context) (v : UInt64) : Context := { words := Function.update c.words 1 v }

def setLr (c : Context) (v : UInt64) : Context := { words := Function.update c.words 2 v }

def setX0 (c : Context) (v : UInt64) : Context := { words := Function.update c.words 3 v }

end Context

/-- `struct Message`.  `path` is the string it points to, `none` for `NULL`;
the other pointers are addresses. -/
structure Message where
  type : UInt64
  path : Option Str
  argv : UInt64
  data : UInt64
  size : UInt64
  flags : UInt32
  fd : Int
  pid : Int
  status : Int
  entry : UInt64
  dirents : UInt64
  direntCount : UInt64
  deriving DecidableEq

/-- `MSG_NONBLOCK`. -/
def msgNonblock : UInt32 := 1

/-- `struct message_queue`; `messages` is used from `0` to `31`. -/
structure MessageQueue where
  messages : Nat → Message
  head : Int
  tail : Int
  count : Int

/-- `struct process`. -/
structure Process where
  pid : Int
  parentPid : Int
  state : ProcState
  ns : List Binding
  ctx : Context
  sp : UInt64
  next : Option ProcPtr
  exitStatus : Int
  msgQueue : MessageQueue
  msgBlocked : Int

/-- A message of zero bytes. -/
def Message.zero : Message where
  type := 0
  path := none
  argv := 0
  data := 0
  size := 0
  flags := 0
  fd := 0
  pid := 0
  status := 0
  entry := 0
  dirents := 0
  direntCount := 0

/-- A queue of zero bytes. -/
def MessageQueue.zero : MessageQueue where
  messages := fun _ => Message.zero
  head := 0
  tail := 0
  count := 0

/-- A process of zero bytes. -/
def Process.zero : Process where
  pid := 0
  parentPid := 0
  state := .ready
  ns := []
  ctx := { words := fun _ => 0 }
  sp := 0
  next := none
  exitStatus := 0
  msgQueue := MessageQueue.zero
  msgBlocked := 0

/-- `sizeof(process_t)`. -/
def sizeofProcess : Nat := 3160

/-- What `context_switch` saves and restores: `x19` to `x30`, `sp` and `daif`. -/
structure Cpu where
  x : Fin 12 → UInt64
  sp : UInt64
  daif : UInt64

/-- The kernel's processes: the records, `process_list`, `current_process`,
`process_count`, `next_pid`, the heap, the registers and the address of
`process_stacks`. -/
structure Procs where
  proc : ProcPtr → Process
  processList : Option ProcPtr
  currentProcess : Option ProcPtr
  processCount : Nat
  nextPid : Int
  heap : Heap
  cpu : Cpu
  processStacks : UInt64

/-- Before the first process: everything is zero, `next_pid` is 2. -/
def Procs.boot (processStacks : UInt64) : Procs where
  proc := fun _ => Process.zero
  processList := none
  currentProcess := none
  processCount := 0
  nextPid := 2
  heap := Heap.mk 0
  cpu := { x := fun _ => 0, sp := 0, daif := 0 }
  processStacks := processStacks

/-- Why a call does not return. -/
inductive Halt
  | idle
  | null
  | bounds
  | endless
  deriving DecidableEq

namespace Procs

/-- Change one record. -/
def modify (s : Procs) (p : ProcPtr) (f : Process → Process) : Procs :=
  { s with proc := Function.update s.proc p (f (s.proc p)) }

/-- `p->state = state`. -/
def setState (s : Procs) (p : ProcPtr) (state : ProcState) : Procs :=
  s.modify p fun q => { q with state := state }

/-- `p->msg_blocked = flag`. -/
def setMsgBlocked (s : Procs) (p : ProcPtr) (flag : Int) : Procs :=
  s.modify p fun q => { q with msgBlocked := flag }

/-- A new content of `p->msg_queue`. -/
def setQueue (s : Procs) (p : ProcPtr) (queue : MessageQueue) : Procs :=
  s.modify p fun q => { q with msgQueue := queue }

/-- `current_process = p`. -/
def setCurrent (s : Procs) (p : ProcPtr) : Procs := { s with currentProcess := some p }

/-- `&process_stacks[i][PROCESS_STACK_SIZE]`. -/
def stackTop (s : Procs) (i : Nat) : UInt64 :=
  s.processStacks + UInt64.ofNat ((i + 1) * processStackSize)

/-- `get_current_process()`, of which a field is used next. -/
def getCurrentProcess (s : Procs) : Except Halt ProcPtr :=
  match s.currentProcess with
  | none => .error .null
  | some p => .ok p

/-- More records than this do not fit in memory: a walk over the list that
passes more of them comes by one of them twice, and never ends. -/
def walkBound : Nat := maxProcesses + heapSize

/-- The loops over `process_list`: the first process with `p`, `none` when there
is none. -/
def walk (s : Procs) (p : Process → Bool) : Except Halt (Option ProcPtr) :=
  match findFrom (fun q => (s.proc q).next) (fun q => p (s.proc q)) walkBound s.processList with
  | none => .error .endless
  | some found => .ok found

end Procs

/-! ## The scheduler -/

/-- The stores of `context_switch`. -/
def saveContext (cpu : Cpu) (c : Context) : Context where
  words i :=
    if h : i < 12 then cpu.x (i.castLT h)
    else if i = 12 then cpu.sp
    else if i = 13 then cpu.daif
    else c.words i

/-- The loads of `context_switch`. -/
def loadContext (c : Context) : Cpu where
  x := fun i => c.words (i.castLE (by decide))
  sp := c.words 12
  daif := c.words 13

/-- `context_switch(&old->ctx, &new->ctx)`. -/
def contextSwitch (s : Procs) (old new : ProcPtr) : Procs :=
  let s := s.modify old fun p => { p with ctx := saveContext s.cpu p.ctx }
  { s with cpu := loadContext (s.proc new).ctx }

/-- A process that is switched out while it could go on is ready again. -/
def preempt (s : Procs) (current : ProcPtr) : Procs :=
  if (s.proc current).state = .running then s.setState current .ready else s

/-- What `schedule` does when it has found `next`. -/
def switchTo (s : Procs) (current next : ProcPtr) : Procs :=
  contextSwitch ((preempt (s.setState next .running) current).setCurrent next) current next

/-- `schedule`. -/
def schedule (s : Procs) : Except Halt Procs := do
  match ← s.walk fun p => decide (p.state ≠ .zombie ∧ p.state = .ready) with
  | none => throw .idle
  | some next =>
    let current ← s.getCurrentProcess
    return switchTo s current next

/-! ## Creating processes -/

/-- `init_process`. -/
def initProcess (s : Procs) : Procs :=
  let s := s.modify (.slot 0) fun p =>
    { p with
      pid := 1
      parentPid := 0
      state := .running
      next := none
      sp := s.stackTop 0
      ctx := (p.ctx.setSp (s.stackTop 0)).setLr 0 }
  { s with
    processList := some (.slot 0)
    currentProcess := some (.slot 0)
    processCount := 1
    nextPid := 2 }

/-- What `create_process` stores in the new process. -/
def setUpChild (s : Procs) (new current : ProcPtr) : Procs :=
  s.modify new fun p =>
    { p with
      pid := s.nextPid
      parentPid := (s.proc current).pid
      state := .ready
      next := s.processList
      sp := s.stackTop s.processCount
      ctx := (s.proc current).ctx.setSp (s.stackTop s.processCount) }

/-- `create_process`, and the process it returns. -/
def createProcess (s : Procs) : Except Halt (Procs × ProcPtr) := do
  let current ← s.getCurrentProcess
  if maxProcesses ≤ s.processCount then throw .bounds
  let new := ProcPtr.slot s.processCount
  return ({ setUpChild s new current with
    processList := some new
    processCount := s.processCount + 1
    nextPid := s.nextPid + 1 }, new)

/-- `send_message` with `MSG_FORK`; `create_process` never returns `NULL`. -/
def sendFork (s : Procs) (msg : Message) : Except Halt (Procs × Message × Int) := do
  let (s, new) ← createProcess s
  return (s, { msg with pid := (s.proc new).pid }, 0)

/-- What `handle_fork_message` stores in the new process. -/
def setUpFork (s : Procs) (new current : ProcPtr) (entry : UInt64) : Procs :=
  s.modify new fun p =>
    { p with
      parentPid := (s.proc current).pid
      state := .ready
      ctx := ((s.proc current).ctx.setX0 0).setPc entry }

/-- `handle_fork_message`. -/
def handleForkMessage (s : Procs) (msg : Message) : Except Halt (Procs × Message × Int) := do
  let current ← s.getCurrentProcess
  let (s, new) ← createProcess s
  let s := setUpFork s new current msg.entry
  return (s, { msg with pid := (s.proc new).pid, status := 0 }, 0)

/-- `process_create`, and the process it returns; `entry` is the address of the
function.  The record is zero when `kalloc` hands it out. -/
def processCreate (s : Procs) (entry : UInt64) : Procs × Option ProcPtr :=
  match kalloc s.heap sizeofProcess with
  | none => (s, none)
  | some (a, heap) =>
    let new := ProcPtr.heap a
    let t := s.modify new fun _ =>
      { Process.zero with
        ns := []
        next := s.processList
        ctx := Process.zero.ctx.setPc entry
        pid := s.nextPid }
    ({ t with
      heap := heap
      currentProcess := s.currentProcess.or (some new)
      processList := some new
      nextPid := s.nextPid + 1 }, some new)

/-! ## Waiting and exiting -/

/-- The current process gives the processor away as `BLOCKED`. -/
def blockCurrent (s : Procs) (current : ProcPtr) : Except Halt Procs :=
  schedule (s.setState current .blocked)

/-- The loop for a child that has exited. -/
def findZombie (s : Procs) (current : ProcPtr) : Except Halt (Option ProcPtr) :=
  s.walk fun p => decide (p.parentPid = (s.proc current).pid ∧ p.state = .zombie)

/-- `wait_for_child`; it returns `0` when the process runs again. -/
def waitForChild (s : Procs) : Except Halt Procs := do
  let current ← s.getCurrentProcess
  blockCurrent s current

/-- `send_message` with `MSG_WAIT`.  Without an answer the process has been
switched out and continues with `sendWaitResumed`. -/
def sendWait (s : Procs) (msg : Message) : Except Halt (Procs × Option (Message × Int)) := do
  let current ← s.getCurrentProcess
  match ← findZombie s current with
  | some p => return (s, some ({ msg with status := (s.proc p).exitStatus }, 0))
  | none => return (← blockCurrent s current, none)

/-- The rest of `send_message` with `MSG_WAIT`, when the process `current` that
has called it runs again. -/
def sendWaitResumed (s : Procs) (current : ProcPtr) (msg : Message) :
    Except Halt (Message × Int) := do
  match ← findZombie s current with
  | some p => return ({ msg with status := (s.proc p).exitStatus }, 0)
  | none => return (msg, -1)

/-- `handle_wait_message`; a process that was switched out returns when it runs
again. -/
def handleWaitMessage (s : Procs) (msg : Message) : Except Halt (Procs × Message × Int) := do
  let current ← s.getCurrentProcess
  match ← findZombie s current with
  | some p =>
    return (s.setState p .dead,
      { msg with status := (s.proc p).exitStatus, pid := (s.proc p).pid }, 0)
  | none => return (← blockCurrent s current, { msg with status := 0 }, 0)

/-- `find_process`. -/
def findProcess (s : Procs) (pid : Int) : Except Halt (Option ProcPtr) :=
  s.walk fun p => decide (p.pid = pid)

/-- A parent that waits is woken. -/
def wake (s : Procs) (parent : Option ProcPtr) : Procs :=
  match parent with
  | none => s
  | some p =>
    if (s.proc p).state = .blocked then s.setState p .ready else s

/-- The first stores of `exit_process`. -/
def markExited (s : Procs) (current : ProcPtr) (status : Int) : Procs :=
  s.modify current fun p => { p with state := .zombie, exitStatus := status }

/-- `exit_process`. -/
def exitProcess (s : Procs) (status : Int) : Except Halt Procs := do
  let current ← s.getCurrentProcess
  let s := markExited s current status
  let parent ← findProcess s (s.proc current).parentPid
  schedule (wake s parent)

/-! ## Messages -/

/-- The queue with `msg` stored at `tail`. -/
def MessageQueue.enqueue (queue : MessageQueue) (msg : Message) : MessageQueue where
  messages := Function.update queue.messages queue.tail.toNat msg
  head := queue.head
  tail := (queue.tail + 1).tmod maxMessages
  count := queue.count + 1

/-- The queue without the message at `head`. -/
def MessageQueue.dequeue (queue : MessageQueue) : MessageQueue where
  messages := queue.messages
  head := (queue.head + 1).tmod maxMessages
  tail := queue.tail
  count := queue.count - 1

/-- A process is no longer marked as waiting for a message. -/
def clearBlocked (s : Procs) (p : ProcPtr) : Procs :=
  if (s.proc p).msgBlocked ≠ 0 then s.setMsgBlocked p 0 else s

/-- `queue_message`. -/
def queueMessage (s : Procs) (proc : ProcPtr) (msg : Message) : Procs × Int :=
  let queue := (s.proc proc).msgQueue
  if queue.count ≥ maxMessages then (s, -1)
  else (clearBlocked (s.setQueue proc (queue.enqueue msg)) proc, 0)

/-- `receive_message`, with the message it leaves in `msg`; a process that was
switched out returns when it runs again. -/
def receiveMessage (s : Procs) (msg : Message) : Except Halt (Procs × Message × Int) := do
  let current ← s.getCurrentProcess
  let queue := (s.proc current).msgQueue
  if queue.count = 0 then
    if msg.flags &&& msgNonblock = 0 then
      return (← schedule (s.setMsgBlocked current 1), msg, -1)
    else return (s, msg, -1)
  else return (s.setQueue current queue.dequeue, queue.messages queue.head.toNat, 0)

/-! ## What the updates leave alone -/

namespace Procs

variable {s : Procs} {p q : ProcPtr} {f : Process → Process}

theorem modify_proc_self : (s.modify p f).proc p = f (s.proc p) := Function.update_self ..

theorem modify_proc_of_ne (h : q ≠ p) : (s.modify p f).proc q = s.proc q :=
  Function.update_of_ne h ..

/-- A field that the change keeps is the same in every record. -/
theorem modify_field {β : Type*} (g : Process → β) (h : ∀ r, g (f r) = g r) :
    g ((s.modify p f).proc q) = g (s.proc q) := by
  by_cases hq : q = p
  · rw [hq, modify_proc_self, h]
  · rw [modify_proc_of_ne hq]

theorem setState_state (st : ProcState) :
    ((s.setState p st).proc q).state = if q = p then st else (s.proc q).state := by
  rw [setState]
  split
  · next hq => rw [hq, modify_proc_self]
  · next hq => rw [modify_proc_of_ne hq]

@[simp] theorem setMsgBlocked_state (b : Int) :
    ((s.setMsgBlocked p b).proc q).state = (s.proc q).state :=
  modify_field (·.state) fun _ => rfl

@[simp] theorem setQueue_state (queue : MessageQueue) :
    ((s.setQueue p queue).proc q).state = (s.proc q).state :=
  modify_field (·.state) fun _ => rfl

theorem getCurrentProcess_eq {c : ProcPtr} (h : s.currentProcess = some c) :
    s.getCurrentProcess = .ok c := by simp [getCurrentProcess, h]

end Procs

/-- A context switch changes the saved registers only. -/
theorem contextSwitch_field {s : Procs} {c n p : ProcPtr} {β : Type*} (g : Process → β)
    (hctx : ∀ q x, g { q with ctx := x } = g q) :
    g ((contextSwitch s c n).proc p) = g (s.proc p) := by
  show g ((s.modify c fun q => { q with ctx := saveContext s.cpu q.ctx }).proc p) = g (s.proc p)
  exact Procs.modify_field g fun q => hctx q _

/-- `t` has the processes of `s`, linked and numbered as they are in `s`. -/
structure SameLinks (s t : Procs) : Prop where
  next : ∀ p, (t.proc p).next = (s.proc p).next
  pid : ∀ p, (t.proc p).pid = (s.proc p).pid
  processList : t.processList = s.processList
  processCount : t.processCount = s.processCount
  nextPid : t.nextPid = s.nextPid
  heap : t.heap = s.heap

namespace SameLinks

variable {s t u : Procs}

theorem refl (s : Procs) : SameLinks s s := ⟨fun _ => rfl, fun _ => rfl, rfl, rfl, rfl, rfl⟩

theorem trans (h : SameLinks s t) (h' : SameLinks t u) : SameLinks s u where
  next p := (h'.next p).trans (h.next p)
  pid p := (h'.pid p).trans (h.pid p)
  processList := h'.processList.trans h.processList
  processCount := h'.processCount.trans h.processCount
  nextPid := h'.nextPid.trans h.nextPid
  heap := h'.heap.trans h.heap

/-- A change of one record that keeps its link and its number. -/
theorem modify {p : ProcPtr} {f : Process → Process} (hnext : ∀ q, (f q).next = q.next)
    (hpid : ∀ q, (f q).pid = q.pid) : SameLinks s (s.modify p f) where
  next _ := Procs.modify_field (·.next) hnext
  pid _ := Procs.modify_field (·.pid) hpid
  processList := rfl
  processCount := rfl
  nextPid := rfl
  heap := rfl

theorem setState (s : Procs) (p : ProcPtr) (st : ProcState) : SameLinks s (s.setState p st) :=
  modify (fun _ => rfl) fun _ => rfl

theorem setMsgBlocked (s : Procs) (p : ProcPtr) (b : Int) : SameLinks s (s.setMsgBlocked p b) :=
  modify (fun _ => rfl) fun _ => rfl

theorem setQueue (s : Procs) (p : ProcPtr) (q : MessageQueue) : SameLinks s (s.setQueue p q) :=
  modify (fun _ => rfl) fun _ => rfl

theorem markExited (s : Procs) (p : ProcPtr) (status : Int) : SameLinks s (markExited s p status) :=
  modify (fun _ => rfl) fun _ => rfl

theorem wake (s : Procs) (parent : Option ProcPtr) : SameLinks s (wake s parent) := by
  cases parent with
  | none => exact refl s
  | some p =>
    rw [OsArm.wake]
    split
    · exact setState s p .ready
    · exact refl s

theorem preempt (s : Procs) (c : ProcPtr) : SameLinks s (preempt s c) := by
  rw [OsArm.preempt]
  split
  · exact setState s c .ready
  · exact refl s

theorem setCurrent (s : Procs) (p : ProcPtr) : SameLinks s (s.setCurrent p) :=
  ⟨fun _ => rfl, fun _ => rfl, rfl, rfl, rfl, rfl⟩

theorem contextSwitch (s : Procs) (c n : ProcPtr) : SameLinks s (contextSwitch s c n) where
  next _ := contextSwitch_field (·.next) fun _ _ => rfl
  pid _ := contextSwitch_field (·.pid) fun _ _ => rfl
  processList := rfl
  processCount := rfl
  nextPid := rfl
  heap := rfl

theorem switchTo (s : Procs) (c n : ProcPtr) : SameLinks s (switchTo s c n) :=
  (((setState s n .running).trans (preempt _ c)).trans (setCurrent _ n)).trans (contextSwitch _ c n)

end SameLinks

/-! ## The states after a switch, an exit or a wake-up -/

section States

variable {s : Procs} {c n p : ProcPtr}

theorem markExited_state (status : Int) :
    ((markExited s c status).proc p).state = if p = c then .zombie else (s.proc p).state := by
  rw [markExited]
  split
  · next hp => rw [hp, Procs.modify_proc_self]
  · next hp => rw [Procs.modify_proc_of_ne hp]

theorem wake_state (parent : Option ProcPtr) :
    ((wake s parent).proc p).state =
      if parent = some p ∧ (s.proc p).state = .blocked then .ready else (s.proc p).state := by
  cases parent with
  | none => simp [wake]
  | some q =>
    rw [wake]
    by_cases hq : q = p
    · subst hq
      by_cases hb : (s.proc q).state = .blocked <;> simp [hb, Procs.setState_state]
    · have hp : p ≠ q := fun h => hq h.symm
      split <;> simp [hq, hp, Procs.setState_state]

theorem wake_currentProcess (parent : Option ProcPtr) :
    (wake s parent).currentProcess = s.currentProcess := by
  cases parent with
  | none => rfl
  | some q =>
    rw [wake]
    split <;> rfl

theorem preempt_state :
    ((preempt s c).proc p).state =
      if p = c ∧ (s.proc c).state = .running then .ready else (s.proc p).state := by
  rw [preempt]
  by_cases hrun : (s.proc c).state = .running
  · simp [hrun, Procs.setState_state]
  · simp [hrun]

/-- The next process runs, and one that could go on is ready. -/
theorem switchTo_state (hcn : c ≠ n) :
    ((switchTo s c n).proc p).state =
      if p = n then .running
      else if p = c ∧ (s.proc c).state = .running then .ready
      else (s.proc p).state := by
  have hpre : ((switchTo s c n).proc p).state =
      ((preempt (s.setState n .running) c).proc p).state :=
    contextSwitch_field (·.state) fun _ _ => rfl
  rw [hpre, preempt_state, Procs.setState_state, Procs.setState_state, if_neg hcn]
  by_cases hpn : p = n
  · have hpc : p ≠ c := fun h => hcn (h.symm.trans hpn)
    simp [hpn, hcn.symm]
  · simp [hpn]

theorem switchTo_currentProcess : (switchTo s c n).currentProcess = some n := rfl

end States

end OsArm
