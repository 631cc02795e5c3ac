import OsArm.Proc.Exec

/-!
# Waiting for children

`fork`, `exit` and the three waits in any order, with what a wait returns when its
process runs again.

* `waitStep` — one call; a wait that gives the processor away is pending until its
  process is switched to, and returns there.
* `Turns` — what a call does to the states of the processes: which one blocks, which
  one exits, which one is reaped; `turns_of_step` — every call does just that.
-/

namespace OsArm

/-! ## The calls -/

/-- The two waits that report a child. -/
inductive WaitPath
  | sendWait
  | handleWait
  deriving DecidableEq

/-- What a wait returns, and to whom. -/
structure Reply where
  caller : ProcPtr
  path : WaitPath
  msg : Message
  ret : Int

/-- The processes, the waits that have given the processor away, and the children
whose exit some wait has returned. -/
structure WaitState where
  procs : Procs
  pending : ProcPtr → Option (WaitPath × Message)
  told : ProcPtr → Bool

/-- A call. -/
inductive WaitCall
  | sendFork (msg : Message)
  | handleForkMessage (msg : Message)
  | schedule
  | sendWait (msg : Message)
  | handleWaitMessage (msg : Message)
  | waitForChild
  | exitProcess (status : Int)
  | compute (cpu : Cpu)

/-- The call of the process code. -/
def WaitCall.procCall : WaitCall → ProcCall
  | sendFork msg => .sendFork msg
  | handleForkMessage msg => .handleForkMessage msg
  | schedule => .schedule
  | sendWait msg => .sendWait msg
  | handleWaitMessage msg => .handleWaitMessage msg
  | waitForChild => .waitForChild
  | exitProcess status => .exitProcess status
  | compute cpu => .compute cpu

/-- The child that the loop of a wait finds. -/
def exitedChild (s : Procs) (c : ProcPtr) : Option ProcPtr :=
  match findZombie s c with
  | .ok found => found
  | .error _ => none

namespace WaitState

/-- A wait has returned with the child that its loop has found. -/
def tell (w : WaitState) (found : Option ProcPtr) : WaitState :=
  { w with told := fun p => w.told p || decide (found = some p) }

/-- The state after a call that returns. -/
def goOn (w : WaitState) (procs : Procs) : WaitState := { w with procs := procs }

/-- The state after a wait of `c` has given the processor away. -/
def await (w : WaitState) (procs : Procs) (c : ProcPtr) (wait : WaitPath × Message) :
    WaitState where
  procs := procs
  pending := Function.update w.pending c (some wait)
  told := w.told

/-- The wait of `c` is over. -/
def finish (w : WaitState) (c : ProcPtr) : WaitState :=
  { w with pending := Function.update w.pending c none }

/-- The current process goes on: a wait of it that is pending returns. -/
def resume (w : WaitState) : Except Halt (WaitState × Option Reply) := do
  let c ← w.procs.getCurrentProcess
  match w.pending c with
  | none => return (w, none)
  | some (.sendWait, msg) =>
    let (out, ret) ← sendWaitResumed w.procs c msg
    return ((w.tell (exitedChild w.procs c)).finish c, some ⟨c, .sendWait, out, ret⟩)
  | some (.handleWait, msg) =>
    return (w.finish c, some ⟨c, .handleWait, { msg with status := 0 }, 0⟩)

end WaitState

/-- One call, and what a wait returns at it. -/
def waitStep (w : WaitState) (call : WaitCall) : Except Halt (WaitState × Option Reply) := do
  match call with
  | .sendWait msg =>
    let c ← w.procs.getCurrentProcess
    match ← sendWait w.procs msg with
    | (procs, some (out, ret)) =>
      return ((w.tell (exitedChild w.procs c)).goOn procs, some ⟨c, .sendWait, out, ret⟩)
    | (procs, none) => (w.await procs c (.sendWait, msg)).resume
  | .handleWaitMessage msg =>
    let c ← w.procs.getCurrentProcess
    let (procs, out, ret) ← handleWaitMessage w.procs msg
    if (exitedChild w.procs c).isSome then
      return ((w.tell (exitedChild w.procs c)).goOn procs, some ⟨c, .handleWait, out, ret⟩)
    else (w.await procs c (.handleWait, msg)).resume
  | call =>
    let procs ← call.procCall.apply w.procs
    (w.goOn procs).resume

/-- The waits as a transition system; a label is a call with what a wait has
returned at it. -/
def waitLts : Lts WaitState (WaitCall × Option Reply) where
  step w a w' := waitStep w a.1 = .ok (w', a.2)

/-- After `init_process`. -/
def WaitState.init (s : Procs) : WaitState where
  procs := initProcess s
  pending := fun _ => none
  told := fun _ => false

/-! ## What a call does to the processes -/

namespace WaitCall

/-- The caller blocks. -/
def Blocks (s : Procs) (c : ProcPtr) : WaitCall → Prop
  | waitForChild => True
  | sendWait _ | handleWaitMessage _ => exitedChild s c = none
  | _ => False

/-- The caller exits. -/
def Exits : WaitCall → Prop
  | exitProcess _ => True
  | _ => False

/-- The child that is `PROC_DEAD` afterwards. -/
def reaped (s : Procs) (c : ProcPtr) : WaitCall → Option ProcPtr
  | handleWaitMessage _ => exitedChild s c
  | _ => none

/-- A caller that blocks does nothing else. -/
theorem Blocks.alone {s : Procs} {c : ProcPtr} {call : WaitCall} (h : call.Blocks s c) :
    ¬ call.Exits ∧ call.reaped s c = none ∧ call.procCall.forks = false := by
  cases call with
  | waitForChild => exact ⟨id, rfl, rfl⟩
  | sendWait msg => exact ⟨id, rfl, rfl⟩
  | handleWaitMessage msg => exact ⟨id, h, rfl⟩
  | _ => exact h.elim

end WaitCall

/-- From `s` to `t` the process `c` blocks (`blocks`) or exits (`exits`), and the child
`reaped` is taken away; a parent that waits for the one that exits is woken. -/
structure Turns (ps : List ProcPtr) (c : ProcPtr) (blocks exits : Prop) (reaped : Option ProcPtr)
    (s t : Procs) : Prop where
  blocked : ∀ p ∈ ps, (t.proc p).state = .blocked ↔
    blocks ∧ p = c ∨
      (s.proc p).state = .blocked ∧ ¬ (exits ∧ (s.proc c).parentPid = (s.proc p).pid)
  zombie : ∀ p ∈ ps, (t.proc p).state = .zombie ↔
    exits ∧ p = c ∨ (s.proc p).state = .zombie ∧ reaped ≠ some p
  dead : ∀ p ∈ ps, (t.proc p).state = .dead ↔ (s.proc p).state = .dead ∨ reaped = some p

section Turns

variable {ps : List ProcPtr} {c n p : ProcPtr} {s t : Procs}

/-- Records that stay. -/
theorem Turns.of_eq (h : ∀ p ∈ ps, (t.proc p).state = (s.proc p).state) :
    Turns ps c False False none s t := by
  constructor
  · intro p hp
    simp [h p hp]
  · intro p hp
    simp [h p hp]
  · intro p hp
    simp [h p hp]

/-- A switch from a process that is not ready to one that is ready only makes the one
ready and the other running. -/
theorem switchTo_state_iff (hc : (s.proc c).state ≠ .ready) (hn : (s.proc n).state = .ready)
    {st : ProcState} (hready : st ≠ .ready) (hrunning : st ≠ .running) :
    ((switchTo s c n).proc p).state = st ↔ (s.proc p).state = st := by
  have hcn : c ≠ n := by
    rintro rfl
    exact hc hn
  rw [switchTo_state hcn]
  by_cases hpn : p = n
  · rw [if_pos hpn, hpn, hn]
    exact iff_of_false hrunning.symm hready.symm
  · rw [if_neg hpn]
    split
    · next hpc =>
      rw [hpc.1, hpc.2]
      exact iff_of_false hready.symm hrunning.symm
    · rfl

/-- The current process is the one that runs. -/
theorem Table.handover_of (h : Table ps s) (hc : s.currentProcess = some c) :
    Handover ps c s ∧ (s.proc c).state = .running := by
  obtain ⟨d, hd, hrun⟩ := h.handover
  have hcur := hd.current
  rw [hc] at hcur
  rw [Option.some.inj hcur]
  exact ⟨hd, hrun⟩

/-- `schedule` takes a ready process of the list. -/
theorem Handover.schedule_ok (h : Handover ps c s) (hs : schedule s = .ok t) :
    ∃ n ∈ ps, (s.proc n).state = .ready ∧ t = switchTo s c n := by
  rw [h.schedule_eq] at hs
  split at hs
  · cases hs
  · next n hfind =>
    refine ⟨n, List.mem_of_find?_eq_some hfind, ?_, (Except.ok.inj hs).symm⟩
    simpa using List.find?_some hfind

/-- The loop of a wait finds the first exited child. -/
theorem Table.findZombie_eq (h : Table ps s) (c : ProcPtr) :
    findZombie s c = .ok (exitedChild s c) ∧
      exitedChild s c = ps.find? fun p =>
        decide ((s.proc p).parentPid = (s.proc c).pid ∧ (s.proc p).state = .zombie) := by
  have hwalk := h.listed.walk_eq fun p =>
    decide (p.parentPid = (s.proc c).pid ∧ p.state = .zombie)
  have hfind : findZombie s c = .ok (ps.find? fun p =>
      decide ((s.proc p).parentPid = (s.proc c).pid ∧ (s.proc p).state = .zombie)) := hwalk
  rw [exitedChild, hfind]
  exact ⟨rfl, rfl⟩

/-- What the loop finds is an exited child. -/
theorem Table.exitedChild_some (h : Table ps s) (hfound : exitedChild s c = some p) :
    p ∈ ps ∧ (s.proc p).parentPid = (s.proc c).pid ∧ (s.proc p).state = .zombie := by
  rw [(h.findZombie_eq c).2] at hfound
  exact ⟨List.mem_of_find?_eq_some hfound, by simpa using List.find?_some hfound⟩

/-- When it finds none there is none. -/
theorem Table.exitedChild_none (h : Table ps s) (hfound : exitedChild s c = none) :
    ∀ p ∈ ps, (s.proc p).parentPid = (s.proc c).pid → (s.proc p).state ≠ .zombie := by
  rw [(h.findZombie_eq c).2, List.find?_eq_none] at hfound
  intro p hp hparent hstate
  exact hfound p hp (by simp [hparent, hstate])

/-- `send_message` with `MSG_WAIT` when there is an exited child. -/
theorem Table.sendWait_some (h : Table ps s) (hc : s.currentProcess = some c) {q : ProcPtr}
    (hq : exitedChild s c = some q) (msg : Message) :
    OsArm.sendWait s msg = .ok (s, some ({ msg with status := (s.proc q).exitStatus }, 0)) := by
  rw [OsArm.sendWait, Procs.getCurrentProcess_eq hc]
  show (findZombie s c >>= _) = _
  rw [(h.findZombie_eq c).1, hq]
  rfl

/-- The same when there is none. -/
theorem Table.sendWait_none (h : Table ps s) (hc : s.currentProcess = some c)
    (hq : exitedChild s c = none) (msg : Message) :
    OsArm.sendWait s msg = OsArm.blockCurrent s c >>= fun t => pure (t, none) := by
  rw [OsArm.sendWait, Procs.getCurrentProcess_eq hc]
  show (findZombie s c >>= _) = _
  rw [(h.findZombie_eq c).1, hq]
  rfl

/-- `handle_wait_message` when there is an exited child. -/
theorem Table.handleWaitMessage_some (h : Table ps s) (hc : s.currentProcess = some c) {q : ProcPtr}
    (hq : exitedChild s c = some q) (msg : Message) :
    OsArm.handleWaitMessage s msg =
      .ok (s.setState q .dead,
        { msg with status := (s.proc q).exitStatus, pid := (s.proc q).pid }, 0) := by
  rw [OsArm.handleWaitMessage, Procs.getCurrentProcess_eq hc]
  show (findZombie s c >>= _) = _
  rw [(h.findZombie_eq c).1, hq]
  rfl

/-- The same when there is none. -/
theorem Table.handleWaitMessage_none (h : Table ps s) (hc : s.currentProcess = some c)
    (hq : exitedChild s c = none) (msg : Message) :
    OsArm.handleWaitMessage s msg =
      OsArm.blockCurrent s c >>= fun t => pure (t, { msg with status := 0 }, 0) := by
  rw [OsArm.handleWaitMessage, Procs.getCurrentProcess_eq hc]
  show (findZombie s c >>= _) = _
  rw [(h.findZombie_eq c).1, hq]
  rfl

/-- The current process blocks. -/
theorem Turns.block (h : Handover ps c s) (hrun : (s.proc c).state = .running)
    (ht : OsArm.blockCurrent s c = .ok t) : Turns ps c True False none s t := by
  obtain ⟨n, hn, hready, rfl⟩ := h.blocked.schedule_ok ht
  have hc : ((s.setState c .blocked).proc c).state ≠ .ready := by
    rw [Procs.setState_state, if_pos rfl]
    decide
  constructor
  · intro p hp
    rw [switchTo_state_iff hc hready (by decide) (by decide), Procs.setState_state]
    by_cases hpc : p = c <;> simp [hpc]
  · intro p hp
    rw [switchTo_state_iff hc hready (by decide) (by decide), Procs.setState_state]
    by_cases hpc : p = c <;> simp [hpc, hrun]
  · intro p hp
    rw [switchTo_state_iff hc hready (by decide) (by decide), Procs.setState_state]
    by_cases hpc : p = c <;> simp [hpc, hrun]

/-- `find_process` finds the process of the table with that number. -/
theorem Listed.findProcess_eq (h : Listed ps s) (pid : Int) :
    ∃ found, findProcess s pid = .ok found ∧
      ∀ p ∈ ps, found = some p ↔ pid = (s.proc p).pid := by
  refine ⟨_, h.walk_eq _, fun p hp => ⟨?_, ?_⟩⟩
  · intro hfound
    simpa [eq_comm] using List.find?_some hfound
  · intro hpid
    have hsome : (ps.find? fun q => decide ((s.proc q).pid = pid)).isSome := by
      rw [List.find?_isSome]
      exact ⟨p, hp, by simp [hpid]⟩
    obtain ⟨q, hq⟩ := Option.isSome_iff_exists.1 hsome
    have hqpid : (s.proc q).pid = pid := by simpa using List.find?_some hq
    rw [hq, h.pid_inj q (List.mem_of_find?_eq_some hq) p hp (hqpid.trans hpid)]

/-- The current process exits; a parent that is blocked becomes ready. -/
theorem Turns.exit (h : Handover ps c s) (hrun : (s.proc c).state = .running) {status : Int}
    (ht : OsArm.exitProcess s status = .ok t) : Turns ps c False True none s t := by
  have hlisted := h.listed.of_sameLinks (.markExited s c status)
  obtain ⟨parent, hparent, ht⟩ := ok_of_bind (ok_of_current h.current ht)
  have hfield : ∀ p, ((markExited s c status).proc p).parentPid = (s.proc p).parentPid :=
    fun p => Procs.modify_field (·.parentPid) fun _ => rfl
  have hpid : ∀ p, ((markExited s c status).proc p).pid = (s.proc p).pid :=
    fun p => Procs.modify_field (·.pid) fun _ => rfl
  obtain ⟨found, hfound, hmem⟩ := hlisted.findProcess_eq (s.proc c).parentPid
  rw [hfield, hfound] at hparent
  rw [← Except.ok.inj hparent] at ht
  have hwake := h.exited status found
  have hstate : ∀ p ∈ ps, ((wake (markExited s c status) found).proc p).state =
      if p = c then .zombie
      else if (s.proc c).parentPid = (s.proc p).pid ∧ (s.proc p).state = .blocked then .ready
      else (s.proc p).state := by
    intro p hp
    have hp' := hmem p hp
    rw [hpid] at hp'
    rw [wake_state, markExited_state]
    by_cases hpc : p = c
    · simp [hpc]
    · simp [hpc, hp']
  obtain ⟨n, hn, hready, rfl⟩ := hwake.schedule_ok ht
  have hc : ((wake (markExited s c status) found).proc c).state ≠ .ready := by
    rw [hstate c h.mem, if_pos rfl]
    decide
  constructor
  · intro p hp
    rw [switchTo_state_iff hc hready (by decide) (by decide), hstate p hp]
    by_cases hpc : p = c
    · simp [hpc, hrun]
    · by_cases hb : (s.proc p).state = .blocked <;> simp [hpc, hb]
  · intro p hp
    rw [switchTo_state_iff hc hready (by decide) (by decide), hstate p hp]
    by_cases hpc : p = c
    · simp [hpc]
    · by_cases hwoken : (s.proc c).parentPid = (s.proc p).pid ∧ (s.proc p).state = .blocked <;>
        simp [hpc, hwoken]
  · intro p hp
    rw [switchTo_state_iff hc hready (by decide) (by decide), hstate p hp]
    by_cases hpc : p = c
    · simp [hpc, hrun]
    · by_cases hwoken : (s.proc c).parentPid = (s.proc p).pid ∧ (s.proc p).state = .blocked <;>
        simp [hpc, hwoken]

/-- A child is reaped. -/
theorem Turns.reap {q : ProcPtr} (hq : (s.proc q).state = .zombie) :
    Turns ps c False False (some q) s (s.setState q .dead) := by
  constructor
  · intro p hp
    rw [Procs.setState_state]
    by_cases hpq : p = q <;> simp [hpq, hq]
  · intro p hp
    rw [Procs.setState_state]
    by_cases hpq : p = q
    · simp [hpq]
    · simp [hpq, Ne.symm hpq]
  · intro p hp
    rw [Procs.setState_state]
    by_cases hpq : p = q
    · simp [hpq]
    · simp [hpq, Ne.symm hpq]

/-- A fork takes the next slot and leaves the processes there are alone. -/
theorem Table.slot_fresh (h : Table ps s) (hp : p ∈ ps) : p ≠ .slot s.processCount := by
  rintro rfl
  exact Nat.lt_irrefl _ (h.listed.slot_lt _ hp)

/-- **Every call** does just what its name says to the states. -/
theorem turns_of_apply (h : Table ps s) (hc : s.currentProcess = some c) {call : WaitCall}
    (ht : call.procCall.apply s = .ok t) :
    Turns ps c (call.Blocks s c) call.Exits (call.reaped s c) s t := by
  obtain ⟨hd, hrun⟩ := h.handover_of hc
  cases call with
  | sendFork msg | handleForkMessage msg =>
    have hfork := forked_of_apply hc (h.slot_fresh hd.mem) rfl ht
    refine Turns.of_eq ?_
    intro p hp
    rw [hfork.others p (h.slot_fresh hp)]
  | schedule =>
    obtain ⟨n, hn, hready, rfl⟩ := hd.schedule_ok ht
    have hnot : (s.proc c).state ≠ .ready := by simp [hrun]
    constructor
    · intro p hp
      simp [switchTo_state_iff hnot hready, WaitCall.Blocks, WaitCall.Exits]
    · intro p hp
      simp [switchTo_state_iff hnot hready, WaitCall.Exits, WaitCall.reaped]
    · intro p hp
      simp [switchTo_state_iff hnot hready, WaitCall.reaped]
  | sendWait msg =>
    obtain ⟨r, hr, rfl⟩ := ok_of_map ht
    obtain ⟨found, hfound, hr⟩ := ok_of_bind (ok_of_current hc hr)
    rw [(h.findZombie_eq c).1] at hfound
    rw [WaitCall.Blocks, Except.ok.inj hfound]
    cases found with
    | some p =>
      cases hr
      simpa [WaitCall.Exits, WaitCall.reaped] using Turns.of_eq fun p _ => rfl
    | none =>
      obtain ⟨u, hu, hr⟩ := ok_of_bind hr
      cases hr
      simpa [WaitCall.Exits, WaitCall.reaped] using Turns.block hd hrun hu
  | handleWaitMessage msg =>
    obtain ⟨r, hr, rfl⟩ := ok_of_map ht
    obtain ⟨found, hfound, hr⟩ := ok_of_bind (ok_of_current hc hr)
    rw [(h.findZombie_eq c).1] at hfound
    rw [WaitCall.Blocks, WaitCall.reaped, Except.ok.inj hfound]
    cases found with
    | some p =>
      cases hr
      obtain ⟨-, -, hzombie⟩ := h.exitedChild_some (Except.ok.inj hfound)
      simpa [WaitCall.Exits] using Turns.reap hzombie
    | none =>
      obtain ⟨u, hu, hr⟩ := ok_of_bind hr
      cases hr
      simpa [WaitCall.Exits] using Turns.block hd hrun hu
  | waitForChild => exact Turns.block hd hrun (ok_of_current hc ht)
  | exitProcess status => exact Turns.exit hd hrun ht
  | compute cpu =>
    cases ht
    exact Turns.of_eq fun p _ => rfl

end Turns

/-! ## What a wait returns -/

section Replies

variable {ps : List ProcPtr} {c n : ProcPtr} {w w' : WaitState} {call : WaitCall} {r : Option Reply}

/-- A wait that finds an exited child returns at once. -/
inductive Found (w : WaitState) (c q : ProcPtr) : WaitCall → Reply → Prop
  | sendWait (msg : Message) : Found w c q (.sendWait msg)
      ⟨c, .sendWait, { msg with status := (w.procs.proc q).exitStatus }, 0⟩
  | handleWait (msg : Message) : Found w c q (.handleWaitMessage msg)
      ⟨c, .handleWait,
        { msg with status := (w.procs.proc q).exitStatus, pid := (w.procs.proc q).pid }, 0⟩

/-- A process that goes on returns from its wait, if there is one. -/
inductive Resumes (w : WaitState) (n : ProcPtr) : WaitState → Option Reply → Prop
  | quiet : w.pending n = none → Resumes w n w none
  | sendWait (msg out : Message) (ret : Int) : w.pending n = some (.sendWait, msg) →
      sendWaitResumed w.procs n msg = .ok (out, ret) →
      Resumes w n ((w.tell (exitedChild w.procs n)).finish n) (some ⟨n, .sendWait, out, ret⟩)
  | handleWait (msg : Message) : w.pending n = some (.handleWait, msg) →
      Resumes w n (w.finish n) (some ⟨n, .handleWait, { msg with status := 0 }, 0⟩)

theorem resumes_of_resume (hn : w.procs.currentProcess = some n) (h : w.resume = .ok (w', r)) :
    Resumes w n w' r := by
  have h := ok_of_current hn h
  cases hpending : w.pending n with
  | none =>
    rw [hpending] at h
    cases h
    exact .quiet hpending
  | some wait =>
    obtain ⟨path, msg⟩ := wait
    rw [hpending] at h
    cases path with
    | sendWait =>
      obtain ⟨⟨out, ret⟩, hout, h⟩ := ok_of_bind h
      cases h
      exact .sendWait msg out ret hpending hout
    | handleWait =>
      cases h
      exact .handleWait msg hpending

theorem Resumes.procs {w₁ : WaitState} (h : Resumes w₁ n w' r) : w'.procs = w₁.procs := by
  cases h <;> rfl

/-- A call after which the process that runs next goes on. -/
structure GoesOn (w : WaitState) (n : ProcPtr) (w' : WaitState) (r : Option Reply) : Prop where
  current : w'.procs.currentProcess = some n
  resumes : ∃ w₁, w₁.told = w.told ∧ w₁.procs = w'.procs ∧ Resumes w₁ n w' r

/-- The processor is somebody's after every call. -/
theorem goesOn_of_resume (w₁ : WaitState) {procs : ProcCall} (h : Table ps w.procs)
    (happly : procs.apply w.procs = .ok w₁.procs) (htold : w₁.told = w.told)
    (hresume : w₁.resume = .ok (w', r)) :
    procs.apply w.procs = .ok w'.procs ∧ ∃ n, GoesOn w n w' r := by
  obtain ⟨n, hn, -⟩ := ((h.apply procs).1 _ happly).table.handover
  have hr := resumes_of_resume hn.current hresume
  rw [← hr.procs] at happly
  refine ⟨happly, n, ?_, w₁, htold, hr.procs.symm, hr⟩
  rw [hr.procs]
  exact hn.current

/-- **One call.**  It changes the processes as its call does; and a wait that finds an
exited child returns it, or else the process that runs next goes on. -/
theorem waitStep_spec (h : Table ps w.procs) (hc : w.procs.currentProcess = some c)
    (hstep : waitStep w call = .ok (w', r)) :
    call.procCall.apply w.procs = .ok w'.procs ∧
    ((∃ q reply, exitedChild w.procs c = some q ∧ Found w c q call reply ∧ r = some reply ∧
        w'.told = (w.tell (some q)).told) ∨
      (∀ q reply, exitedChild w.procs c = some q → ¬ Found w c q call reply) ∧
        ∃ n, GoesOn w n w' r) := by
  have hquiet : (∀ q reply, ¬ Found w c q call reply) →
      (call.procCall.apply w.procs >>= fun procs => (w.goOn procs).resume) = .ok (w', r) →
      call.procCall.apply w.procs = .ok w'.procs ∧
        ((∃ q reply, exitedChild w.procs c = some q ∧ Found w c q call reply ∧ r = some reply ∧
          w'.told = (w.tell (some q)).told) ∨
        (∀ q reply, exitedChild w.procs c = some q → ¬ Found w c q call reply) ∧
          ∃ n, GoesOn w n w' r) := by
    intro hnot hbind
    obtain ⟨procs, happly, hresume⟩ := ok_of_bind hbind
    obtain ⟨happly', hgoes⟩ := goesOn_of_resume (w.goOn procs) h happly rfl hresume
    exact ⟨happly', Or.inr ⟨fun q reply _ => hnot q reply, hgoes⟩⟩
  cases call with
  | sendWait msg =>
    have hstep := ok_of_current hc hstep
    cases hq : exitedChild w.procs c with
    | some q =>
      rw [h.sendWait_some hc hq] at hstep
      cases hstep
      refine ⟨?_, Or.inl ⟨q, _, rfl, .sendWait msg, rfl, ?_⟩⟩
      · rw [WaitCall.procCall, ProcCall.apply, h.sendWait_some hc hq]
        rfl
      · rw [hq]
        rfl
    | none =>
      rw [h.sendWait_none hc hq] at hstep
      obtain ⟨⟨procs, ans⟩, hblock, hstep⟩ := ok_of_bind hstep
      obtain ⟨t, ht, hpure⟩ := ok_of_bind hblock
      cases hpure
      have happly : (ProcCall.sendWait msg).apply w.procs = .ok procs := by
        rw [ProcCall.apply, h.sendWait_none hc hq, ht]
        rfl
      obtain ⟨happly', hgoes⟩ :=
        goesOn_of_resume (w.await procs c (.sendWait, msg)) h happly rfl hstep
      refine ⟨happly', Or.inr ⟨?_, hgoes⟩⟩
      intro q reply hsome
      cases hsome
  | handleWaitMessage msg =>
    have hstep := ok_of_current hc hstep
    cases hq : exitedChild w.procs c with
    | some q =>
      rw [h.handleWaitMessage_some hc hq, hq] at hstep
      cases hstep
      refine ⟨?_, Or.inl ⟨q, _, rfl, .handleWait msg, rfl, rfl⟩⟩
      rw [WaitCall.procCall, ProcCall.apply, h.handleWaitMessage_some hc hq]
      rfl
    | none =>
      rw [h.handleWaitMessage_none hc hq] at hstep
      obtain ⟨⟨procs, ans⟩, hblock, hstep⟩ := ok_of_bind hstep
      obtain ⟨t, ht, hpure⟩ := ok_of_bind hblock
      cases hpure
      rw [hq] at hstep
      have happly : (ProcCall.handleWaitMessage msg).apply w.procs = .ok procs := by
        rw [ProcCall.apply, h.handleWaitMessage_none hc hq, ht]
        rfl
      obtain ⟨happly', hgoes⟩ :=
        goesOn_of_resume (w.await procs c (.handleWait, msg)) h happly rfl hstep
      refine ⟨happly', Or.inr ⟨?_, hgoes⟩⟩
      intro q reply hsome
      cases hsome
  | _ => exact hquiet (fun q reply hfound => by cases hfound) hstep

end Replies

/-! ## The family -/

/-- `p` is one of the processes. -/
def Taken (s : Procs) (p : ProcPtr) : Prop := ∃ i < s.processCount, p = .slot i

/-- The table, with the slots that are taken and no other process; parents are older
than their children. -/
structure Family (ps : List ProcPtr) (s : Procs) : Prop where
  table : Table ps s
  mem : ∀ p, p ∈ ps ↔ Taken s p
  older : ∀ p ∈ ps, (s.proc p).parentPid < (s.proc p).pid

/-- `q` is a child of `p`. -/
def Child (s : Procs) (q p : ProcPtr) : Prop := (s.proc q).parentPid = (s.proc p).pid

section Family

variable {ps : List ProcPtr} {c : ProcPtr} {s t : Procs} {call : WaitCall}

theorem family_init (hheap : s.heap.pos ≤ heapSize) : Family [.slot 0] (initProcess s) := by
  refine ⟨table_init hheap, ?_, ?_⟩
  · intro p
    rw [List.mem_singleton]
    constructor
    · rintro rfl
      exact ⟨0, Nat.one_pos, rfl⟩
    · rintro ⟨i, hi, rfl⟩
      rw [Nat.lt_one_iff.1 hi]
  · intro p hp
    rw [List.mem_singleton.1 hp]
    simp [initProcess, Procs.modify]

theorem WaitCall.creates_eq (s : Procs) (call : WaitCall) :
    call.procCall.creates s =
      if call.procCall.forks then some (.slot s.processCount) else none := by
  cases call <;> rfl

/-- The processes there are keep their numbers and parents, and all but the caller its
exit status. -/
theorem Family.fields (h : Family ps s) (hc : s.currentProcess = some c)
    (ht : call.procCall.apply s = .ok t) {p : ProcPtr} (hp : p ∈ ps) :
    (t.proc p).pid = (s.proc p).pid ∧ (t.proc p).parentPid = (s.proc p).parentPid ∧
      (c ≠ p → (t.proc p).exitStatus = (s.proc p).exitStatus) := by
  have hnew : call.procCall.creates s ≠ some p := by
    rw [call.creates_eq]
    split
    · intro heq
      exact h.table.slot_fresh hp (Option.some.inj heq).symm
    · simp
  refine ⟨?_, ?_, ?_⟩
  · exact field_of_apply (g := (·.pid)) ⟨fun _ _ => rfl, fun _ _ => rfl, fun _ _ => rfl⟩
      (.inr fun _ _ _ => rfl) (.inr fun _ _ => rfl) hnew hc ht
  · exact field_of_apply (g := (·.parentPid)) ⟨fun _ _ => rfl, fun _ _ => rfl, fun _ _ => rfl⟩
      (.inr fun _ _ _ => rfl) (.inr fun _ _ => rfl) hnew hc ht
  · intro hne
    exact field_of_apply (g := (·.exitStatus)) ⟨fun _ _ => rfl, fun _ _ => rfl, fun _ _ => rfl⟩
      (.inl hne) (.inl hne) hnew hc ht

/-- **One call** keeps the family; a fork adds a ready child of its caller. -/
theorem Family.step (h : Family ps s) (hc : s.currentProcess = some c)
    (ht : call.procCall.apply s = .ok t) :
    ∃ new, Family (new ++ ps) t ∧ (call.procCall.forks = false → new = []) ∧
      ∀ p ∈ new, p ∉ ps ∧ (t.proc p).state = .ready ∧ (t.proc p).parentPid = (s.proc c).pid := by
  have hcps : c ∈ ps := (h.table.handover_of hc).1.mem
  have hsteps := (h.table.apply _).1 t ht
  have htable := hsteps.table
  have hcount := hsteps.processCount
  have hold : ∀ p ∈ ps, (t.proc p).parentPid < (t.proc p).pid := by
    intro p hp
    rw [(h.fields hc ht hp).1, (h.fields hc ht hp).2.1]
    exact h.older p hp
  rw [call.creates_eq] at htable
  by_cases hforks : call.procCall.forks = true
  · rw [if_pos hforks] at htable hcount
    refine ⟨[.slot s.processCount], ⟨htable, fun p => ?_, fun p hp => ?_⟩, by simp [hforks],
      fun p hp => ?_⟩
    · rw [List.mem_append, List.mem_singleton, h.mem]
      constructor
      · rintro (rfl | ⟨i, hi, rfl⟩)
        · exact ⟨_, by omega, rfl⟩
        · exact ⟨i, by omega, rfl⟩
      · rintro ⟨i, hi, rfl⟩
        by_cases hlast : i = s.processCount
        · exact Or.inl (by rw [hlast])
        · exact Or.inr ⟨i, by omega, rfl⟩
    · rcases List.mem_append.1 hp with hp | hp
      · have hfork := forked_of_apply hc (h.table.slot_fresh hcps) hforks ht
        rw [List.mem_singleton.1 hp, hfork.parentPid, hfork.pid]
        exact h.table.listed.pid_lt c hcps
      · exact hold p hp
    · rw [List.mem_singleton.1 hp]
      have hfork := forked_of_apply hc (h.table.slot_fresh hcps) hforks ht
      exact ⟨fun hmem => h.table.slot_fresh hmem rfl, hfork.state, hfork.parentPid⟩
  · rw [if_neg hforks] at htable hcount
    refine ⟨[], ⟨htable, ?_, hold⟩, fun _ => rfl, fun p hp => absurd hp List.not_mem_nil⟩
    intro p
    rw [List.nil_append, h.mem, Taken, Taken, hcount]
    rfl

end Family

end OsArm
