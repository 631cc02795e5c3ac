import OsArm.Lib.Transition
import OsArm.Proc.Basic

/-!
# The process table

Every call that creates, switches, blocks or ends processes, from `init_process`
on.  What the calls rely on and restore is `Table`: the records are linked into
`process_list` in the order of their creation, the newest first, and the current
process is the only one that is `PROC_RUNNING`.

* `Listed` — the list itself; `Listed.walk_eq` says that every loop over it ends.
* `Handover.settles` — from any state in which at most the current process is
  running, `schedule` finds a ready process and makes it the running one, or
  enters its idle loop.
* `Table.apply` — one call; `process_table` — every run of calls.
-/

namespace OsArm

/-! ## The calls -/

/-- A call of the kernel's process code by the current process, or
(`sendWaitResumed`) the rest of one, or (`compute`) the current process changing
the registers on its own. -/
inductive ProcCall
  | createProcess
  | sendFork (msg : Message)
  | handleForkMessage (msg : Message)
  | processCreate (entry : UInt64)
  | schedule
  | waitForChild
  | sendWait (msg : Message)
  | sendWaitResumed (caller : ProcPtr) (msg : Message)
  | handleWaitMessage (msg : Message)
  | receiveMessage (msg : Message)
  | exitProcess (status : Int)
  | compute (cpu : Cpu)

namespace ProcCall

/-- The state a call leaves, up to where it gives the processor away. -/
def apply (s : Procs) : ProcCall → Except Halt Procs
  | createProcess => (OsArm.createProcess s).map (·.1)
  | sendFork msg => (OsArm.sendFork s msg).map (·.1)
  | handleForkMessage msg => (OsArm.handleForkMessage s msg).map (·.1)
  | processCreate entry => .ok (OsArm.processCreate s entry).1
  | schedule => OsArm.schedule s
  | waitForChild => OsArm.waitForChild s
  | sendWait msg => (OsArm.sendWait s msg).map (·.1)
  | sendWaitResumed caller msg => (OsArm.sendWaitResumed s caller msg).map fun _ => s
  | handleWaitMessage msg => (OsArm.handleWaitMessage s msg).map (·.1)
  | receiveMessage msg => (OsArm.receiveMessage s msg).map (·.1)
  | exitProcess status => OsArm.exitProcess s status
  | compute cpu => .ok { s with cpu := cpu }

/-- The calls that take a slot of `processes`. -/
def forks : ProcCall → Bool
  | createProcess | sendFork _ | handleForkMessage _ => true
  | _ => false

/-- The process a call creates: the next slot, or what `kalloc` hands out. -/
def creates (s : Procs) : ProcCall → Option ProcPtr
  | createProcess | sendFork _ | handleForkMessage _ => some (.slot s.processCount)
  | processCreate _ => (kalloc s.heap sizeofProcess).map fun r => .heap r.1
  | _ => none

end ProcCall

/-- The process code as a transition system; the labels say which process a call
has created. -/
def procLts : Lts Procs (ProcCall × Option ProcPtr) where
  step s a t := a.1.apply s = .ok t ∧ a.2 = a.1.creates s

/-- The processes created in a run from `init_process` on, the newest first. -/
def created (tr : List (ProcCall × Option ProcPtr)) : List ProcPtr :=
  (.slot 0 :: tr.filterMap (·.2)).reverse

/-- A process that has exited. -/
def Ended (s : Procs) (p : ProcPtr) : Prop :=
  (s.proc p).state = .zombie ∨ (s.proc p).state = .dead

/-! ## The list -/

/-- `process_list` links the processes `ps`, and the counters are ahead of all
of them. -/
structure Listed (ps : List ProcPtr) (s : Procs) : Prop where
  linked : Linked (fun p => (s.proc p).next) s.processList ps
  pid_lt : ∀ p ∈ ps, (s.proc p).pid < s.nextPid
  pid_inj : ∀ p ∈ ps, ∀ q ∈ ps, (s.proc p).pid = (s.proc q).pid → p = q
  slot_lt : ∀ i, ProcPtr.slot i ∈ ps → i < s.processCount
  heap_lt : ∀ a, ProcPtr.heap a ∈ ps → a < s.heap.pos
  count_le : s.processCount ≤ maxProcesses
  heap_le : s.heap.pos ≤ heapSize
  length_le : ps.length ≤ s.processCount + s.heap.pos

/-- `t` comes from `s` by linking in one more process, `new`: a slot, or a record
from the heap. -/
structure Pushes (new : ProcPtr) (s t : Procs) : Prop where
  processList : t.processList = some new
  next : (t.proc new).next = s.processList
  pid : (t.proc new).pid = s.nextPid
  state : (t.proc new).state = .ready
  nextPid : t.nextPid = s.nextPid + 1
  old : ∀ p ≠ new, t.proc p = s.proc p
  room :
    (new = .slot s.processCount ∧ t.processCount = s.processCount + 1 ∧
      t.processCount ≤ maxProcesses ∧ t.heap = s.heap) ∨
    (new = .heap s.heap.pos ∧ t.processCount = s.processCount ∧ s.heap.pos < t.heap.pos ∧
      t.heap.pos ≤ heapSize)

namespace Listed

variable {ps : List ProcPtr} {s t : Procs}

theorem of_sameLinks (h : Listed ps s) (hst : SameLinks s t) : Listed ps t where
  linked := by
    rw [hst.processList]
    exact h.linked.congr fun p _ => hst.next p
  pid_lt p hp := by
    rw [hst.pid, hst.nextPid]
    exact h.pid_lt p hp
  pid_inj p hp q hq hpq := by
    rw [hst.pid, hst.pid] at hpq
    exact h.pid_inj p hp q hq hpq
  slot_lt i hi := by
    rw [hst.processCount]
    exact h.slot_lt i hi
  heap_lt a ha := by
    rw [hst.heap]
    exact h.heap_lt a ha
  count_le := by
    rw [hst.processCount]
    exact h.count_le
  heap_le := by
    rw [hst.heap]
    exact h.heap_le
  length_le := by
    rw [hst.processCount, hst.heap]
    exact h.length_le

/-- **The loops end.**  Every walk over the list comes to its end, or to the
first process it looks for. -/
theorem walk_eq (h : Listed ps s) (p : Process → Bool) :
    s.walk p = .ok (ps.find? fun q => p (s.proc q)) := by
  have hlen : ps.length ≤ Procs.walkBound := by
    have hcount := h.count_le
    have hheap := h.heap_le
    have hps := h.length_le
    rw [Procs.walkBound]
    omega
  rw [Procs.walk, h.linked.findFrom_eq hlen]

/-- What is linked in is new. -/
theorem fresh {new : ProcPtr} (h : Listed ps s) (ht : Pushes new s t) : new ∉ ps := by
  intro hmem
  rcases ht.room with ⟨rfl, -⟩ | ⟨rfl, -⟩
  · exact Nat.lt_irrefl _ (h.slot_lt _ hmem)
  · exact Nat.lt_irrefl _ (h.heap_lt _ hmem)

/-- The processes of the list stay as they were. -/
theorem old_of_mem {new p : ProcPtr} (h : Listed ps s) (ht : Pushes new s t) (hp : p ∈ ps) :
    t.proc p = s.proc p := by
  refine ht.old p ?_
  rintro rfl
  exact h.fresh ht hp

/-- A new process in front of the list. -/
theorem push {new : ProcPtr} (h : Listed ps s) (ht : Pushes new s t) : Listed (new :: ps) t where
  linked := by
    rw [ht.processList]
    refine Linked.push (h.linked.congr fun p hp => ?_) ht.next
    show (t.proc p).next = (s.proc p).next
    rw [h.old_of_mem ht hp]
  pid_lt p hp := by
    rw [ht.nextPid]
    rcases List.mem_cons.1 hp with hp | hp
    · rw [hp, ht.pid]
      omega
    · have hlt := h.pid_lt p hp
      rw [h.old_of_mem ht hp]
      omega
  pid_inj p hp q hq hpq := by
    rcases List.mem_cons.1 hp with hp | hp <;> rcases List.mem_cons.1 hq with hq | hq
    · rw [hp, hq]
    · have hlt := h.pid_lt q hq
      rw [hp, ht.pid, h.old_of_mem ht hq] at hpq
      omega
    · have hlt := h.pid_lt p hp
      rw [hq, ht.pid, h.old_of_mem ht hp] at hpq
      omega
    · rw [h.old_of_mem ht hp, h.old_of_mem ht hq] at hpq
      exact h.pid_inj p hp q hq hpq
  slot_lt i hi := by
    rcases List.mem_cons.1 hi with hi | hi
    · rcases ht.room with ⟨rfl, hcount, -⟩ | ⟨rfl, -⟩
      · cases hi
        omega
      · cases hi
    · have hlt := h.slot_lt i hi
      rcases ht.room with ⟨-, hcount, -⟩ | ⟨-, hcount, -⟩ <;> omega
  heap_lt a ha := by
    rcases List.mem_cons.1 ha with ha | ha
    · rcases ht.room with ⟨rfl, -⟩ | ⟨rfl, -, hpos, -⟩
      · cases ha
      · cases ha
        exact hpos
    · have hlt := h.heap_lt a ha
      rcases ht.room with ⟨-, -, -, hheap⟩ | ⟨-, -, hpos, -⟩
      · rwa [hheap]
      · exact Nat.lt_trans hlt hpos
  count_le := by
    have hcount := h.count_le
    rcases ht.room with ⟨-, -, hle, -⟩ | ⟨-, heq, -⟩ <;> omega
  heap_le := by
    have hheap := h.heap_le
    rcases ht.room with ⟨-, -, -, heq⟩ | ⟨-, -, -, hle⟩
    · rwa [heq]
    · exact hle
  length_le := by
    have hlen := h.length_le
    rw [List.length_cons]
    rcases ht.room with ⟨-, hcount, -, hheap⟩ | ⟨-, hcount, hpos, -⟩
    · rw [hheap]
      omega
    · omega

end Listed

/-! ## Giving the processor away -/

/-- The list, and a current process that is the only one which may be running. -/
structure Handover (ps : List ProcPtr) (c : ProcPtr) (s : Procs) : Prop where
  listed : Listed ps s
  mem : c ∈ ps
  current : s.currentProcess = some c
  others : ∀ p ∈ ps, (s.proc p).state = .running → p = c

/-- **The table.**  The list, and a current process that is the running one. -/
structure Table (ps : List ProcPtr) (s : Procs) : Prop where
  listed : Listed ps s
  running : ∃ c ∈ ps, s.currentProcess = some c ∧ ∀ p ∈ ps, (s.proc p).state = .running ↔ p = c

theorem Table.handover {ps : List ProcPtr} {s : Procs} (h : Table ps s) :
    ∃ c, Handover ps c s ∧ (s.proc c).state = .running := by
  obtain ⟨c, hc, hcur, hrun⟩ := h.running
  exact ⟨c, ⟨h.listed, hc, hcur, fun p hp => (hrun p hp).1⟩, (hrun c hc).2 rfl⟩

/-- From `s` to `t` no slot is taken and no process comes back from its end. -/
structure Follows (ps : List ProcPtr) (s t : Procs) : Prop where
  ended : ∀ p ∈ ps, Ended s p → Ended t p
  processCount : t.processCount = s.processCount

namespace Follows

variable {ps : List ProcPtr} {s t u : Procs}

theorem refl (ps : List ProcPtr) (s : Procs) : Follows ps s s := ⟨fun _ _ h => h, rfl⟩

theorem trans (h : Follows ps s t) (h' : Follows ps t u) : Follows ps s u :=
  ⟨fun p hp hend => h'.ended p hp (h.ended p hp hend), h'.processCount.trans h.processCount⟩

/-- States as they were: nothing comes back from its end. -/
theorem of_state (h : ∀ p, (t.proc p).state = (s.proc p).state)
    (hcount : t.processCount = s.processCount) : Follows ps s t := by
  refine ⟨?_, hcount⟩
  intro p _ hend
  rwa [Ended, h]

/-- A process that has not exited may get any state. -/
theorem setState {c : ProcPtr} (st : ProcState) (h : ¬ Ended s c ∨ st = .dead) :
    Follows ps s (s.setState c st) := by
  refine ⟨?_, rfl⟩
  intro p _ hend
  rw [Ended, Procs.setState_state]
  split
  · next hpc =>
    rcases h with h | h
    · exact absurd (hpc ▸ hend) h
    · exact Or.inr h
  · exact hend

end Follows

section Handover

variable {ps : List ProcPtr} {c : ProcPtr} {s s' t : Procs} {r : Except Halt Procs}

/-- A change that sets no other process running leaves the current one its place. -/
theorem Handover.of_sameLinks (h : Handover ps c s) (hst : SameLinks s t)
    (hcur : t.currentProcess = s.currentProcess)
    (hrun : ∀ p ∈ ps, p ≠ c → (t.proc p).state = .running → (s.proc p).state = .running) :
    Handover ps c t where
  listed := h.listed.of_sameLinks hst
  mem := h.mem
  current := hcur.trans h.current
  others p hp hp' := by
    by_contra hne
    exact hne (h.others p hp (hrun p hp hne hp'))

/-- The current process has blocked, for a child or for a message. -/
theorem Handover.blocked (h : Handover ps c s) : Handover ps c (s.setState c .blocked) := by
  refine h.of_sameLinks (.setState s c .blocked) rfl ?_
  intro p _ hne hp
  rwa [Procs.setState_state, if_neg hne] at hp

theorem Handover.msgBlocked (h : Handover ps c s) (b : Int) :
    Handover ps c (s.setMsgBlocked c b) :=
  h.of_sameLinks (.setMsgBlocked s c b) rfl fun p _ _ hp => by
    rwa [Procs.setMsgBlocked_state] at hp

/-- The current process has exited, and has woken its parent. -/
theorem Handover.exited (h : Handover ps c s) (status : Int) (parent : Option ProcPtr) :
    Handover ps c (wake (markExited s c status) parent) := by
  have hsame : SameLinks s (wake (markExited s c status) parent) :=
    (SameLinks.markExited s c status).trans (.wake _ parent)
  refine h.of_sameLinks hsame (wake_currentProcess parent) ?_
  intro p _ hne hp
  rw [wake_state, markExited_state, if_neg hne] at hp
  split at hp
  · cases hp
  · exact hp

theorem exited_state (status : Int) (parent : Option ProcPtr) :
    ((wake (markExited s c status) parent).proc c).state = .zombie := by
  rw [wake_state, markExited_state, if_pos rfl, if_neg (by simp)]

/-- `schedule` takes the first ready process of the list, or idles when there is
none. -/
theorem Handover.schedule_eq (h : Handover ps c s) :
    schedule s =
      match ps.find? fun p => decide ((s.proc p).state = .ready) with
      | none => .error .idle
      | some n => .ok (switchTo s c n) := by
  have hready : (fun p => decide ((s.proc p).state ≠ .zombie ∧ (s.proc p).state = .ready)) =
      fun p => decide ((s.proc p).state = .ready) := by
    funext p
    cases (s.proc p).state <;> rfl
  rw [schedule, h.listed.walk_eq, hready, Procs.getCurrentProcess_eq h.current]
  cases ps.find? fun p => decide ((s.proc p).state = .ready) <;> rfl

/-- What a call that creates nothing comes to: it leaves a table, or it idles. -/
structure Settles (ps : List ProcPtr) (s : Procs) (r : Except Halt Procs) : Prop where
  ok : ∀ t, r = .ok t → Table ps t ∧ Follows ps s t
  error : ∀ e, r = .error e → e = .idle

theorem Settles.of_follows (h : Settles ps s' r) (hs : Follows ps s s') : Settles ps s r where
  ok t ht := ⟨(h.ok t ht).1, hs.trans (h.ok t ht).2⟩
  error := h.error

/-- What a call answers besides the state does not matter. -/
theorem Settles.answer {α : Type} (h : Settles ps s r) (f : Procs → Procs × α)
    (hf : ∀ t, (f t).1 = t) :
    Settles ps s ((r >>= fun t => pure (f t)).map (·.1)) := by
  cases r with
  | error e => exact h
  | ok t =>
    show Settles ps s (.ok (f t).1)
    rwa [hf]

theorem Table.settles (h : Table ps t) (hst : Follows ps s t) :
    Settles ps s (.ok t) where
  ok u hu := by
    cases hu
    exact ⟨h, hst⟩
  error e he := by cases he

/-- **A switch**, by a current process that is not itself ready. -/
theorem Handover.settles (h : Handover ps c s)
    (hc : (s.proc c).state ≠ .ready) : Settles ps s (schedule s) := by
  rw [h.schedule_eq]
  cases hfind : ps.find? fun p => decide ((s.proc p).state = .ready) with
  | none =>
    constructor
    · intro t ht
      cases ht
    · intro e he
      cases he
      rfl
  | some n =>
    have hn : n ∈ ps := List.mem_of_find?_eq_some hfind
    have hready : (s.proc n).state = .ready := by simpa using List.find?_some hfind
    have hcn : c ≠ n := by
      rintro rfl
      exact hc hready
    refine Table.settles ?_ ?_
    · refine ⟨h.listed.of_sameLinks (.switchTo s c n), n, hn, switchTo_currentProcess, ?_⟩
      intro p hp
      rw [switchTo_state hcn]
      by_cases hpn : p = n
      · simp [hpn]
      · simp only [hpn, if_false, iff_false]
        split
        · simp
        · next hpc =>
          intro hrun
          have hpc' := h.others p hp hrun
          subst hpc'
          exact hpc ⟨rfl, hrun⟩
    · refine ⟨?_, (SameLinks.switchTo s c n).processCount⟩
      intro p hp hend
      rw [Ended, switchTo_state hcn]
      by_cases hpn : p = n
      · subst hpn
        simp [Ended, hready] at hend
      · rw [if_neg hpn]
        split
        · next hpc =>
          rw [Ended, hpc.1, hpc.2] at hend
          simp at hend
        · exact hend

end Handover

/-! ## The calls, one by one -/

namespace Table

variable {ps : List ProcPtr} {s t : Procs}

theorem of_sameLinks (h : Table ps s) (hst : SameLinks s t)
    (hcur : t.currentProcess = s.currentProcess)
    (hrun : ∀ p ∈ ps, (t.proc p).state = .running ↔ (s.proc p).state = .running) : Table ps t := by
  obtain ⟨c, hc, hs, hall⟩ := h.running
  refine ⟨h.listed.of_sameLinks hst, c, hc, hcur.trans hs, ?_⟩
  intro p hp
  rw [hrun p hp, hall p hp]

/-- The current process blocks. -/
theorem blockCurrent {c : ProcPtr} (h : Handover ps c s) (hrun : (s.proc c).state = .running) :
    Settles ps s (blockCurrent s c) := by
  have hnot : ¬ Ended s c := by simp [Ended, hrun]
  refine Settles.of_follows (h.blocked.settles ?_) (.setState .blocked (.inl hnot))
  rw [Procs.setState_state, if_pos rfl]
  decide

theorem waitForChild (h : Table ps s) : Settles ps s (waitForChild s) := by
  obtain ⟨c, hc, hrun⟩ := h.handover
  rw [OsArm.waitForChild, Procs.getCurrentProcess_eq hc.current]
  exact blockCurrent hc hrun

/-- The loop for a child that has exited ends; what it finds has exited. -/
theorem findZombie_ok (h : Table ps s) (c : ProcPtr) :
    ∃ found, findZombie s c = .ok found ∧ ∀ p ∈ found, (s.proc p).state = .zombie := by
  refine ⟨_, h.listed.walk_eq _, ?_⟩
  intro p hp
  have hfound := List.find?_some (Option.mem_def.1 hp)
  simp only [decide_eq_true_eq] at hfound
  exact hfound.2

theorem sendWait (h : Table ps s) (msg : Message) :
    Settles ps s ((sendWait s msg).map (·.1)) := by
  obtain ⟨c, hc, hrun⟩ := h.handover
  obtain ⟨found, hfound, -⟩ := h.findZombie_ok c
  rw [OsArm.sendWait, Procs.getCurrentProcess_eq hc.current]
  show Settles ps s (Except.map _ (findZombie s c >>= _))
  rw [hfound]
  cases found with
  | some p => exact h.settles (.refl ps s)
  | none => exact (blockCurrent hc hrun).answer _ fun _ => rfl

theorem sendWaitResumed (h : Table ps s) (caller : ProcPtr) (msg : Message) :
    Settles ps s ((sendWaitResumed s caller msg).map fun _ => s) := by
  obtain ⟨found, hfound, -⟩ := h.findZombie_ok caller
  rw [OsArm.sendWaitResumed, hfound]
  cases found with
  | some p => exact h.settles (.refl ps s)
  | none => exact h.settles (.refl ps s)

/-- A child that is reaped was not running. -/
theorem handleWaitMessage (h : Table ps s) (msg : Message) :
    Settles ps s ((handleWaitMessage s msg).map (·.1)) := by
  obtain ⟨c, hc, hrun⟩ := h.handover
  obtain ⟨found, hfound, hzombie⟩ := h.findZombie_ok c
  rw [OsArm.handleWaitMessage, Procs.getCurrentProcess_eq hc.current]
  show Settles ps s (Except.map _ (findZombie s c >>= _))
  rw [hfound]
  cases found with
  | some p =>
    refine settles (t := s.setState p .dead) ?_ (.setState .dead (.inr rfl))
    refine h.of_sameLinks (.setState s p .dead) rfl ?_
    intro q _
    rw [Procs.setState_state]
    split
    · next hq => simp [hq, hzombie p rfl]
    · rfl
  | none => exact (blockCurrent hc hrun).answer _ fun _ => rfl

theorem receiveMessage (h : Table ps s) (msg : Message) :
    Settles ps s ((receiveMessage s msg).map (·.1)) := by
  obtain ⟨c, hc, hrun⟩ := h.handover
  rw [OsArm.receiveMessage, Procs.getCurrentProcess_eq hc.current]
  show Settles ps s (Except.map _ (ite _ _ _))
  split
  · split
    · have hblock : Settles ps s (OsArm.schedule (s.setMsgBlocked c 1)) := by
        refine Settles.of_follows ((hc.msgBlocked 1).settles ?_) (.of_state (fun p => ?_) rfl)
        · rw [Procs.setMsgBlocked_state, hrun]
          decide
        · exact Procs.setMsgBlocked_state 1
      exact hblock.answer _ fun _ => rfl
    · exact h.settles (.refl ps s)
  · refine settles (h.of_sameLinks (.setQueue s c _) rfl fun p _ => ?_)
      (.of_state (fun p => ?_) rfl)
    · rw [Procs.setQueue_state]
    · exact Procs.setQueue_state _

/-- The parent is woken before the processor is given away. -/
theorem exitProcess (h : Table ps s) (status : Int) : Settles ps s (exitProcess s status) := by
  obtain ⟨c, hc, hrun⟩ := h.handover
  have hlisted := h.listed.of_sameLinks (.markExited s c status)
  rw [OsArm.exitProcess, Procs.getCurrentProcess_eq hc.current]
  show Settles ps s (findProcess (markExited s c status) _ >>= _)
  rw [findProcess, hlisted.walk_eq]
  generalize ps.find? _ = parent
  show Settles ps s (schedule (wake (markExited s c status) parent))
  refine Settles.of_follows ((hc.exited status parent).settles ?_) ?_
  · rw [exited_state]
    decide
  · refine ⟨?_, (SameLinks.wake (markExited s c status) parent).processCount.trans rfl⟩
    intro p _ hend
    rw [Ended, wake_state, markExited_state]
    by_cases hpc : p = c
    · simp [hpc]
    · rw [if_neg hpc, if_neg]
      · exact hend
      · rintro ⟨-, hb⟩
        simp [Ended, hb] at hend

theorem compute (h : Table ps s) (cpu : Cpu) : Settles ps s (.ok { s with cpu := cpu }) :=
  settles (h.of_sameLinks ⟨fun _ => rfl, fun _ => rfl, rfl, rfl, rfl, rfl⟩ rfl fun _ _ => Iff.rfl)
    (.of_state (fun _ => rfl) rfl)

/-- A process is linked in. -/
theorem push {new : ProcPtr} (h : Table ps s) (ht : Pushes new s t)
    (hcur : t.currentProcess = s.currentProcess) :
    Table (new :: ps) t ∧ ∀ p ∈ ps, Ended s p → Ended t p := by
  have hold (p : ProcPtr) (hp : p ∈ ps) : t.proc p = s.proc p :=
    h.listed.old_of_mem ht hp
  obtain ⟨c, hc, hs, hall⟩ := h.running
  refine ⟨⟨h.listed.push ht, c, List.mem_cons_of_mem _ hc, hcur.trans hs, ?_⟩, ?_⟩
  · intro p hp
    rcases List.mem_cons.1 hp with rfl | hp
    · have hpc : p ≠ c := by
        rintro rfl
        exact h.listed.fresh ht hc
      simp [ht.state, hpc]
    · rw [hold p hp, hall p hp]
  · intro p hp hend
    rwa [Ended, hold p hp]

end Table

/-! ## Creating processes -/

section Create

variable {ps : List ProcPtr} {s t : Procs} {c : ProcPtr}

/-- `create_process` takes the next slot. -/
theorem createProcess_eq (hcur : s.currentProcess = some c)
    (hroom : s.processCount < maxProcesses) :
    ∃ t, createProcess s = .ok (t, .slot s.processCount) ∧ Pushes (.slot s.processCount) s t ∧
      t.currentProcess = s.currentProcess ∧ t.processCount = s.processCount + 1 := by
  rw [createProcess, Procs.getCurrentProcess_eq hcur]
  refine ⟨_, if_neg (Nat.not_le.2 hroom), ?_, rfl, rfl⟩
  constructor
  case processList => rfl
  case next => simp [setUpChild, Procs.modify]
  case pid => simp [setUpChild, Procs.modify]
  case state => simp [setUpChild, Procs.modify]
  case nextPid => rfl
  case old =>
    intro p hp
    simp [setUpChild, Procs.modify, hp]
  case room => exact Or.inl ⟨rfl, rfl, hroom, rfl⟩

/-- `create_process` with every slot taken writes behind the array. -/
theorem createProcess_full (hcur : s.currentProcess = some c)
    (hfull : maxProcesses ≤ s.processCount) : createProcess s = .error .bounds := by
  rw [createProcess, Procs.getCurrentProcess_eq hcur]
  exact if_pos hfull

/-- `handle_fork_message` changes nothing of the new process that matters to the
list. -/
theorem Pushes.setUpFork {new : ProcPtr} (h : Pushes new s t) (entry : UInt64) :
    Pushes new s (setUpFork t new c entry) where
  processList := h.processList
  next := by
    rw [← h.next]
    exact Procs.modify_field (·.next) fun _ => rfl
  pid := by
    rw [← h.pid]
    exact Procs.modify_field (·.pid) fun _ => rfl
  state := by simp [OsArm.setUpFork, Procs.modify]
  nextPid := h.nextPid
  old p hp := by
    rw [← h.old p hp]
    exact Procs.modify_proc_of_ne hp
  room := h.room

/-- `process_create`, when `kalloc` succeeds. -/
theorem processCreate_pushes {a : Nat} {heap : Heap} (entry : UInt64) (hpos : s.heap.pos ≤ heapSize)
    (hcur : s.currentProcess = some c) (halloc : kalloc s.heap sizeofProcess = some (a, heap)) :
    Pushes (.heap a) s (processCreate s entry).1 ∧
      (processCreate s entry).1.currentProcess = s.currentProcess ∧
      (processCreate s entry).1.processCount = s.processCount := by
  obtain ⟨rfl, hheap, hle⟩ := kalloc_some hpos (by simp [sizeofProcess]) halloc
  unfold processCreate
  rw [halloc]
  refine ⟨?_, by simp [hcur], rfl⟩
  constructor
  case processList => rfl
  case next => simp [Procs.modify]
  case pid => simp [Procs.modify]
  case state => simp [Procs.modify, Process.zero]
  case nextPid => rfl
  case old =>
    intro p hp
    simp [Procs.modify, hp]
  case room =>
    refine Or.inr ⟨rfl, rfl, ?_, ?_⟩
    · show s.heap.pos < heap.pos
      simp [hheap, sizeofProcess]
    · show heap.pos ≤ heapSize
      rwa [hheap]

end Create

/-! ## Every call, every run -/

section Runs

variable {ps : List ProcPtr} {s t : Procs}

/-- What one call does to the table: with a new process it grows by that one. -/
structure Steps (ps : List ProcPtr) (call : ProcCall) (s t : Procs) : Prop where
  table : Table ((call.creates s).toList ++ ps) t
  ended : ∀ p ∈ ps, Ended s p → Ended t p
  processCount : t.processCount = s.processCount + if call.forks then 1 else 0

/-- Why a call may not return: it idles, or it forks without a slot left. -/
def Stops (call : ProcCall) (s : Procs) (e : Halt) : Prop :=
  e = .idle ∨ e = .bounds ∧ call.forks = true ∧ s.processCount = maxProcesses

theorem Settles.steps {call : ProcCall} {r : Except Halt Procs} (h : Settles ps s r)
    (hcreates : call.creates s = none) (hforks : call.forks = false) :
    (∀ t, r = .ok t → Steps ps call s t) ∧ ∀ e, r = .error e → Stops call s e := by
  refine ⟨?_, fun e he => Or.inl (h.error e he)⟩
  intro t ht
  obtain ⟨htable, hfollows⟩ := h.ok t ht
  refine ⟨?_, hfollows.ended, ?_⟩
  · rw [hcreates]
    exact htable
  · rw [hforks]
    exact hfollows.processCount

/-- The calls that fork differ in what they do to the new process only. -/
theorem Table.fork (h : Table ps s) {call : ProcCall} {r : Except Halt Procs}
    (hcreates : call.creates s = some (.slot s.processCount)) (hforks : call.forks = true)
    (hfull : createProcess s = .error .bounds → r = .error .bounds)
    (hroom : ∀ t, createProcess s = .ok (t, .slot s.processCount) →
      Pushes (.slot s.processCount) s t →
      ∃ u, r = .ok u ∧ Pushes (.slot s.processCount) s u ∧
        u.currentProcess = t.currentProcess ∧ u.processCount = t.processCount) :
    (∀ t, r = .ok t → Steps ps call s t) ∧ ∀ e, r = .error e → Stops call s e := by
  obtain ⟨c, hc, -⟩ := h.handover
  by_cases hcount : s.processCount < maxProcesses
  · obtain ⟨t, ht, hpush, hcur, hnum⟩ := createProcess_eq hc.current hcount
    obtain ⟨u, rfl, hpush', hcur', hnum'⟩ := hroom t ht hpush
    constructor
    · intro v hv
      cases hv
      obtain ⟨htable, hended⟩ := h.push hpush' (hcur'.trans hcur)
      refine ⟨?_, hended, ?_⟩
      · rw [hcreates]
        exact htable
      · rw [hforks, hnum', hnum]
        rfl
    · intro e he
      cases he
  · rw [hfull (createProcess_full hc.current (Nat.not_lt.1 hcount))]
    constructor
    · intro v hv
      cases hv
    · intro e he
      cases he
      exact Or.inr ⟨rfl, hforks, Nat.le_antisymm h.listed.count_le (Nat.not_lt.1 hcount)⟩

/-- `process_create`: a process more, or nothing when `kalloc` fails. -/
theorem Table.processCreate (h : Table ps s) (entry : UInt64) :
    Steps ps (.processCreate entry) s (processCreate s entry).1 := by
  obtain ⟨c, hc, -⟩ := h.handover
  cases halloc : kalloc s.heap sizeofProcess with
  | none =>
    have hnone : (OsArm.processCreate s entry).1 = s := by
      unfold OsArm.processCreate
      rw [halloc]
    rw [hnone]
    refine ⟨?_, fun _ _ hend => hend, rfl⟩
    rw [ProcCall.creates, halloc]
    exact h
  | some r =>
    obtain ⟨hpush, hcur, hcount⟩ :=
      processCreate_pushes entry h.listed.heap_le hc.current halloc
    obtain ⟨htable, hended⟩ := h.push hpush hcur
    refine ⟨?_, hended, hcount⟩
    rw [ProcCall.creates, halloc]
    exact htable

/-- **One call.**  From a table every call leads to a table or does not return,
and it does not return for one of two reasons only. -/
theorem Table.apply (h : Table ps s) (call : ProcCall) :
    (∀ t, call.apply s = .ok t → Steps ps call s t) ∧
      ∀ e, call.apply s = .error e → Stops call s e := by
  obtain ⟨c, hc, hrun⟩ := h.handover
  cases call with
  | createProcess =>
    refine h.fork rfl rfl (fun he => ?_) fun t ht hpush => ⟨t, ?_, hpush, rfl, rfl⟩
    · rw [ProcCall.apply, he]
      rfl
    · rw [ProcCall.apply, ht]
      rfl
  | sendFork msg =>
    refine h.fork rfl rfl (fun he => ?_) fun t ht hpush => ⟨t, ?_, hpush, rfl, rfl⟩
    · rw [ProcCall.apply, sendFork, he]
      rfl
    · rw [ProcCall.apply, sendFork, ht]
      rfl
  | handleForkMessage msg =>
    refine h.fork rfl rfl (fun he => ?_) fun t ht hpush =>
      ⟨_, ?_, hpush.setUpFork (c := c) msg.entry, rfl, rfl⟩
    · rw [ProcCall.apply, handleForkMessage, Procs.getCurrentProcess_eq hc.current, he]
      rfl
    · rw [ProcCall.apply, handleForkMessage, Procs.getCurrentProcess_eq hc.current, ht]
      rfl
  | processCreate entry =>
    rw [ProcCall.apply]
    refine ⟨?_, fun e he => nomatch he⟩
    intro t ht
    rw [← Except.ok.inj ht]
    exact h.processCreate entry
  | schedule =>
    refine (hc.settles ?_).steps rfl rfl
    rw [hrun]
    decide
  | waitForChild => exact h.waitForChild.steps rfl rfl
  | sendWait msg => exact (h.sendWait msg).steps rfl rfl
  | sendWaitResumed caller msg => exact (h.sendWaitResumed caller msg).steps rfl rfl
  | handleWaitMessage msg => exact (h.handleWaitMessage msg).steps rfl rfl
  | receiveMessage msg => exact (h.receiveMessage msg).steps rfl rfl
  | exitProcess status => exact (h.exitProcess status).steps rfl rfl
  | compute cpu => exact (h.compute cpu).steps rfl rfl

/-- `init_process` sets up a table of one. -/
theorem table_init (hheap : s.heap.pos ≤ heapSize) : Table [.slot 0] (initProcess s) := by
  have hpid : ((initProcess s).proc (.slot 0)).pid = 1 := by simp [initProcess, Procs.modify]
  have hnext : ((initProcess s).proc (.slot 0)).next = none := by
    simp [initProcess, Procs.modify]
  have hstate : ((initProcess s).proc (.slot 0)).state = .running := by
    simp [initProcess, Procs.modify]
  refine ⟨?_, .slot 0, by simp, rfl, by simpa using hstate⟩
  constructor
  case linked => exact ⟨rfl, hnext⟩
  case pid_lt =>
    intro p hp
    rw [List.mem_singleton.1 hp, hpid]
    show (1 : Int) < 2
    decide
  case pid_inj =>
    intro p hp q hq _
    rw [List.mem_singleton.1 hp, List.mem_singleton.1 hq]
  case slot_lt =>
    intro i hi
    cases List.mem_singleton.1 hi
    exact Nat.one_pos
  case heap_lt =>
    intro a ha
    cases List.mem_singleton.1 ha
  case count_le =>
    show 1 ≤ maxProcesses
    decide
  case heap_le => exact hheap
  case length_le => exact Nat.le_add_right 1 _

/-- Along a run, from any table on. -/
theorem Table.run {tr : List (ProcCall × Option ProcPtr)} (h : Table ps s)
    (hrun : procLts.Run s tr t) :
    Table ((tr.filterMap (·.2)).reverse ++ ps) t ∧ (∀ p ∈ ps, Ended s p → Ended t p) ∧
      t.processCount = s.processCount + tr.countP fun a => a.1.forks := by
  induction hrun with
  | nil => exact ⟨h, fun _ _ hend => hend, rfl⟩
  | @snoc tr t u a _ hstep ih =>
    obtain ⟨htable, hended, hcount⟩ := ih
    obtain ⟨htable', hended', hcount'⟩ := (htable.apply a.1).1 u hstep.1
    refine ⟨?_, ?_, ?_⟩
    · rw [← hstep.2, ← List.append_assoc] at htable'
      rw [List.filterMap_append, List.reverse_append]
      cases hnew : a.2 <;> simpa [hnew] using htable'
    · intro p hp hend
      exact hended' p (List.mem_append_right _ hp) (hended p hp hend)
    · rw [hcount', hcount, List.countP_append, List.countP_singleton, Nat.add_assoc]

theorem created_eq (tr : List (ProcCall × Option ProcPtr)) :
    created tr = (tr.filterMap (·.2)).reverse ++ [.slot 0] := List.reverse_cons

/-- Along a run from `init_process` on. -/
theorem table_run {tr : List (ProcCall × Option ProcPtr)} (hheap : s.heap.pos ≤ heapSize)
    (h : procLts.Run (initProcess s) tr t) :
    Table (created tr) t ∧ t.processCount = 1 + tr.countP fun a => a.1.forks := by
  obtain ⟨htable, -, hcount⟩ := (table_init hheap).run h
  refine ⟨?_, hcount⟩
  rw [created_eq]
  exact htable

/-- **The process table.**  In every state a run from `init_process` on reaches,
`process_list` ends and holds every created process exactly once, their pids are
distinct, the current process and no other is `PROC_RUNNING`, and a process that
has exited stays so however the run goes on; a call that does not return has
entered the idle loop, or has forked when three forks had taken all slots. -/
theorem process_table {tr : List (ProcCall × Option ProcPtr)} (hheap : s.heap.pos ≤ heapSize)
    (h : procLts.Run (initProcess s) tr t) :
    Linked (fun p => (t.proc p).next) t.processList (created tr) ∧
    (created tr).Nodup ∧
    ((created tr).map fun p => (t.proc p).pid).Nodup ∧
    (∃ c ∈ created tr, t.currentProcess = some c ∧
      ∀ p ∈ created tr, (t.proc p).state = .running ↔ p = c) ∧
    (∀ p ∈ created tr, Ended t p → ∀ tr' u, procLts.Run t tr' u → Ended u p) ∧
    ∀ (call : ProcCall) e, call.apply t = .error e →
      e = .idle ∨
      e = .bounds ∧ call.forks = true ∧ (tr.countP fun a => a.1.forks) = maxProcesses - 1 := by
  obtain ⟨htable, hcount⟩ := table_run hheap h
  have hnodup := htable.listed.linked.nodup
  refine ⟨htable.listed.linked, hnodup, ?_, htable.running, ?_, ?_⟩
  · exact List.Nodup.map_on htable.listed.pid_inj hnodup
  · intro p hp hend tr' u hu
    exact (htable.run hu).2.1 p hp hend
  · intro call e he
    rcases (htable.apply call).2 e he with hidle | ⟨hbounds, hforks, hfull⟩
    · exact Or.inl hidle
    · refine Or.inr ⟨hbounds, hforks, ?_⟩
      omega

/-- One more call. -/
theorem run_call {s t u : Procs} {tr : List (ProcCall × Option ProcPtr)} (h : procLts.Run s tr t)
    (call : ProcCall) (hu : call.apply t = .ok u) :
    procLts.Run s (tr ++ [(call, call.creates t)]) u := h.snoc ⟨hu, rfl⟩

/-- A parent forks, waits, and is woken when the child exits. -/
theorem process_table_wait :
    ∃ t, procLts.Run (initProcess (Procs.boot 0))
        [(.sendFork Message.zero, some (.slot 1)), (.waitForChild, none),
          (.exitProcess 42, none)] t ∧
      Linked (fun p => (t.proc p).next) t.processList [.slot 1, .slot 0] ∧
      t.currentProcess = some (.slot 0) ∧ Ended t (.slot 1) := by
  have hfork := run_call (.nil (s := initProcess (Procs.boot 0))) (.sendFork Message.zero) rfl
  have hrun := run_call (run_call hfork .waitForChild rfl) (.exitProcess 42) rfl
  exact ⟨_, hrun, (process_table (Nat.zero_le _) hrun).1, rfl, Or.inl rfl⟩

end Runs

end OsArm
