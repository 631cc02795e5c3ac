import OsArm.Proc.Waiting

/-!
# The two exits (`process_exit`, `exit_process`)

* `processExit` — the one of the two that also takes its process out of `ready_queue` and leaves
  no current process behind when it calls `schedule`.
* `ExitsTo` — what an exit is for; `exitProcess_exitsTo` says that `exit_process` does it whenever
  some process is ready.
* `exits_disagree` — `process_exit` never does: `schedule` reads the pid of the current process
  before it asks whether there is one.
-/

namespace OsArm

/-! ## `process_exit` -/

/-- Take what the loop has found, with the process before it, out of `ready_queue`. -/
def unqueue (s : Procs) (readyQueue : Option ProcPtr) :
    Option (Option ProcPtr × ProcPtr) → Procs × Option ProcPtr
  | none => (s, readyQueue)
  | some (none, temp) => (s, (s.proc temp).next)
  | some (some prev, temp) =>
    (s.modify prev fun p => { p with next := (s.proc temp).next }, readyQueue)

/-- `process_exit`, with the `ready_queue` it leaves. -/
def processExit (s : Procs) (readyQueue : Option ProcPtr) (status : Int) :
    Except Halt (Procs × Option ProcPtr) :=
  match s.currentProcess with
  | none => .ok (s, readyQueue)
  | some current => do
    let s := markExited s current status
    match findPrevFrom (fun q => (s.proc q).next) (fun q => decide (q = current))
        Procs.walkBound none readyQueue with
    | none => throw .endless
    | some found =>
      let (s, readyQueue) := unqueue s readyQueue found
      -- `current_process = NULL`, and `schedule` is left to find another one
      let s ← schedule { s with currentProcess := none }
      return (s, readyQueue)

/-- A call of the process code, either exit included. -/
inductive ExitCall
  | proc (call : ProcCall)
  | processExit (status : Int)

/-- The processes and `ready_queue` after a call. -/
def ExitCall.apply (s : Procs × Option ProcPtr) : ExitCall → Except Halt (Procs × Option ProcPtr)
  | proc call => (call.apply s.1).map fun t => (t, s.2)
  | processExit status => OsArm.processExit s.1 s.2 status

/-- The process code with both exits as a transition system. -/
def exitLts : Lts (Procs × Option ProcPtr) ExitCall where
  step s a t := a.apply s = .ok t

/-! ## What an exit is for -/

/-- The exit of `c` leads from `s` to `t`: `c` is a zombie with its status, a parent that was
blocked can run again, and the first process of the list that can run does. -/
structure ExitsTo (ps : List ProcPtr) (c : ProcPtr) (s t : Procs) (status : Int) : Prop where
  zombie : (t.proc c).state = .zombie
  exitStatus : (t.proc c).exitStatus = status
  parent : ∀ p ∈ ps, (s.proc p).pid = (s.proc c).parentPid → (s.proc p).state = .blocked →
    (t.proc p).state = .ready ∨ t.currentProcess = some p
  next : ∃ n, t.currentProcess = some n ∧ (t.proc n).state = .running ∧
    ps.find? (fun p => decide ((s.proc p).state = .ready ∨
      (s.proc p).state = .blocked ∧ (s.proc p).pid = (s.proc c).parentPid)) = some n

/-- **The two exits agree**: they lead to one and the same table, the one an exit is for. -/
def ExitsAgree (ps : List ProcPtr) (s : Procs) (readyQueue : Option ProcPtr)
    (status : Int) : Prop :=
  ∃ c t q, s.currentProcess = some c ∧ processExit s readyQueue status = .ok (t, q) ∧
    exitProcess s status = .ok t ∧ ExitsTo ps c s t status

section Exits

variable {ps : List ProcPtr} {c n p : ProcPtr} {s t : Procs} {q : Option ProcPtr}

/-- The state in which `exit_process` calls `schedule`: its process is marked, the one whose pid it
has as its parent's is woken. -/
theorem exitProcess_eq (h : Table ps s) (hc : s.currentProcess = some c) (status : Int) :
    ∃ parent, exitProcess s status = schedule (wake (markExited s c status) parent) ∧
      ∀ p ∈ ps, parent = some p ↔ (s.proc p).pid = (s.proc c).parentPid := by
  have hsame := SameLinks.markExited s c status
  have hfield : ((markExited s c status).proc c).parentPid = (s.proc c).parentPid :=
    Procs.modify_field (·.parentPid) fun _ => rfl
  obtain ⟨parent, hfound, hparent⟩ :=
    (h.listed.of_sameLinks hsame).findProcess_eq (s.proc c).parentPid
  refine ⟨parent, ?_, ?_⟩
  · rw [exitProcess, Procs.getCurrentProcess_eq hc, ok_bind]
    dsimp only
    rw [hfield, hfound]
    rfl
  · intro p hp
    rw [hparent p hp, hsame.pid, eq_comm]

/-- Who can run once `exit_process` has marked its process and woken the parent. -/
theorem woken_ready_iff {parent : Option ProcPtr}
    (hrun : (s.proc c).state = .running) (status : Int)
    (hparent : parent = some p ↔ (s.proc p).pid = (s.proc c).parentPid) :
    ((wake (markExited s c status) parent).proc p).state = .ready ↔
      (s.proc p).state = .ready ∨
        (s.proc p).state = .blocked ∧ (s.proc p).pid = (s.proc c).parentPid := by
  rw [wake_state, markExited_state, ← hparent]
  by_cases hpc : p = c
  · simp [hpc, hrun]
  · by_cases hb : (s.proc p).state = .blocked <;> simp [hpc, hb]

theorem wake_exitStatus (parent : Option ProcPtr) :
    ((wake s parent).proc p).exitStatus = (s.proc p).exitStatus := by
  cases parent with
  | none => rfl
  | some r =>
    rw [wake]
    split
    · exact Procs.modify_field (·.exitStatus) fun _ => rfl
    · rfl

theorem switchTo_exitStatus : ((switchTo s c n).proc p).exitStatus = (s.proc p).exitStatus := by
  have hswitch : ((switchTo s c n).proc p).exitStatus =
      ((preempt (s.setState n .running) c).proc p).exitStatus :=
    contextSwitch_field (·.exitStatus) fun _ _ => rfl
  have hpreempt : ((preempt (s.setState n .running) c).proc p).exitStatus =
      ((s.setState n .running).proc p).exitStatus := by
    rw [preempt]
    split
    · exact Procs.modify_field (·.exitStatus) fun _ => rfl
    · rfl
  rw [hswitch, hpreempt]
  exact Procs.modify_field (·.exitStatus) fun _ => rfl

/-- **`exit_process` exits**, whenever a process is ready. -/
theorem exitProcess_exitsTo (h : Table ps s) (hc : s.currentProcess = some c)
    (hn : n ∈ ps) (hready : (s.proc n).state = .ready) (status : Int) :
    ∃ t, exitProcess s status = .ok t ∧ ExitsTo ps c s t status := by
  obtain ⟨hd, hrun⟩ := h.handover_of hc
  obtain ⟨parent, hexit, hparent⟩ := exitProcess_eq h hc status
  have hwake := hd.exited status parent
  have hzombie := exited_state (s := s) (c := c) status parent
  have hstatus : ((wake (markExited s c status) parent).proc c).exitStatus = status := by
    rw [wake_exitStatus]
    exact congrArg (·.exitStatus) Procs.modify_proc_self
  have hwoken (p : ProcPtr) (hp : p ∈ ps) := woken_ready_iff hrun status (hparent p hp)
  generalize wake (markExited s c status) parent = u at *
  have hfind : ps.find? (fun p => decide ((u.proc p).state = .ready)) =
      ps.find? fun p => decide ((s.proc p).state = .ready ∨
        (s.proc p).state = .blocked ∧ (s.proc p).pid = (s.proc c).parentPid) :=
    List.find?_congr fun p hp => by rw [decide_eq_decide, hwoken p hp]
  -- `n` can run, so the first process that can is found
  obtain ⟨m, hm⟩ : ∃ m, ps.find? (fun p => decide ((u.proc p).state = .ready)) = some m := by
    rw [← Option.isSome_iff_exists, List.find?_isSome]
    exact ⟨n, hn, decide_eq_true ((hwoken n hn).2 (Or.inl hready))⟩
  have hmready : (u.proc m).state = .ready := by simpa using List.find?_some hm
  have hcm : c ≠ m := by
    rintro rfl
    rw [hzombie] at hmready
    cases hmready
  refine ⟨switchTo u c m, ?_, ?_, ?_, ?_, m, switchTo_currentProcess, ?_, hfind ▸ hm⟩
  · rw [hexit, hwake.schedule_eq, hm]
  · rw [switchTo_state hcm, if_neg hcm, if_neg (by simp [hzombie]), hzombie]
  · rw [switchTo_exitStatus, hstatus]
  · intro p hp hpid hblocked
    by_cases hpm : p = m
    · exact Or.inr (hpm ▸ switchTo_currentProcess)
    · refine Or.inl ?_
      rw [switchTo_state hcm, if_neg hpm, if_neg (by simp [hzombie])]
      exact (hwoken p hp).2 (Or.inr ⟨hblocked, hpid⟩)
  · rw [switchTo_state hcm, if_pos rfl]

/-- `process_exit` with an empty `ready_queue`: the loop over it finds nothing. -/
theorem processExit_eq (hc : s.currentProcess = some c) (status : Int) :
    processExit s none status =
      (schedule { markExited s c status with currentProcess := none }).map fun t => (t, none) := by
  unfold processExit
  rw [hc]
  show (schedule { markExited s c status with currentProcess := none } >>=
    fun t => pure (t, none)) = _
  cases schedule { markExited s c status with currentProcess := none } <;> rfl

/-- `schedule` without a current process, over a list: it idles, or runs into the `NULL`. -/
theorem Listed.schedule_null (h : Listed ps s) (hc : s.currentProcess = none) :
    schedule s = if (∃ p ∈ ps, (s.proc p).state = .ready) then .error .null else .error .idle := by
  rw [schedule, h.walk_eq]
  cases hfind : ps.find? fun p =>
      decide ((s.proc p).state ≠ .zombie ∧ (s.proc p).state = .ready) with
  | none =>
    rw [if_neg]
    · rfl
    · rintro ⟨p, hp, hready⟩
      simpa [hready] using List.find?_eq_none.1 hfind p hp
  | some n =>
    have hn : (s.proc n).state = .ready := by
      have hfound := List.find?_some hfind
      simp only [decide_eq_true_eq] at hfound
      exact hfound.2
    rw [if_pos ⟨n, List.mem_of_find?_eq_some hfind, hn⟩]
    show (s.getCurrentProcess >>= fun c => pure (switchTo s c n)) = _
    rw [Procs.getCurrentProcess, hc]
    rfl

/-- **`process_exit` never returns**: it idles, or, with another process ready, it runs into the
missing current one. -/
theorem processExit_halts (h : Table ps s) (status : Int) :
    processExit s none status =
      if (∃ p ∈ ps, (s.proc p).state = .ready) then .error .null else .error .idle := by
  obtain ⟨c, hd, hrun⟩ := h.handover
  have hlisted : Listed ps { markExited s c status with currentProcess := none } :=
    h.listed.of_sameLinks ((SameLinks.markExited s c status).trans
      ⟨fun _ => rfl, fun _ => rfl, rfl, rfl, rfl, rfl⟩)
  have hready : (∃ p ∈ ps, ((markExited s c status).proc p).state = .ready) ↔
      ∃ p ∈ ps, (s.proc p).state = .ready := by
    refine exists_congr fun p => and_congr_right ?_
    intro _
    rw [markExited_state]
    split
    · next hpc => simp [hpc, hrun]
    · rfl
  rw [processExit_eq hd.current, hlisted.schedule_null rfl]
  simp only [hready]
  split <;> rfl

/-- Along every run, with either exit: the table stands and `ready_queue` is empty. -/
theorem exit_run {tr : List ExitCall} (hheap : s.heap.pos ≤ heapSize)
    (hrun : exitLts.Run (initProcess s, none) tr (t, q)) : (∃ ps, Table ps t) ∧ q = none := by
  have hinv := Lts.Run.invariant (M := exitLts) (P := fun u => (∃ ps, Table ps u.1) ∧ u.2 = none)
    (fun u a v hu hstep => ?_) ⟨⟨_, table_init hheap⟩, rfl⟩ hrun
  · exact hinv
  · obtain ⟨u, r⟩ := u
    obtain ⟨⟨ps, htable⟩, rfl⟩ := hu
    cases a with
    | proc call =>
      obtain ⟨w, hw, rfl⟩ := ok_of_map hstep
      exact ⟨⟨_, ((htable.apply call).1 w hw).table⟩, rfl⟩
    | processExit status =>
      have hnever : processExit u none status = .ok v := hstep
      rw [processExit_halts htable] at hnever
      split at hnever <;> cases hnever

/-- **The two exits never agree.**  In every state a run of either from `init_process` on reaches,
with a process of the list that is ready: `exit_process` exits, and `process_exit` reads the pid
of a process that is not there. -/
theorem exits_disagree {tr : List ExitCall} (hheap : s.heap.pos ≤ heapSize)
    (hrun : exitLts.Run (initProcess s, none) tr (t, q))
    (hps : Linked (fun p => (t.proc p).next) t.processList ps) (hc : t.currentProcess = some c)
    (hn : n ∈ ps) (hready : (t.proc n).state = .ready) (status : Int) :
    (∃ u, exitProcess t status = .ok u ∧ ExitsTo ps c t u status) ∧
      processExit t q status = .error .null ∧ ¬ ExitsAgree ps t q status := by
  obtain ⟨⟨ps', htable⟩, rfl⟩ := exit_run hheap hrun
  have hps' : ps' = ps := htable.listed.linked.unique hps
  subst hps'
  have hnull : processExit t none status = .error .null := by
    rw [processExit_halts htable, if_pos ⟨n, hn, hready⟩]
  refine ⟨exitProcess_exitsTo htable hc hn hready status, hnull, ?_⟩
  rintro ⟨d, u, r, -, hexit, -⟩
  rw [hnull] at hexit
  cases hexit

/-- A parent with one child that is ready, on the list and off it. -/
theorem forked : ∃ t, exitLts.Run (initProcess (Procs.boot 0), none)
      [.proc (.sendFork Message.zero)] (t, none) ∧ Table [.slot 1, .slot 0] t ∧
    t.currentProcess = some (.slot 0) ∧ (t.proc (.slot 1)).state = .ready := by
  obtain ⟨t, hfork, hcur, hready⟩ : ∃ t,
      (ProcCall.sendFork Message.zero).apply (initProcess (Procs.boot 0)) = .ok t ∧
      t.currentProcess = some (.slot 0) ∧ (t.proc (.slot 1)).state = .ready :=
    ⟨_, rfl, rfl, rfl⟩
  have htable := (((table_init (s := Procs.boot 0) (Nat.zero_le _)).apply _).1 t hfork).table
  refine ⟨t, Lts.Run.cons ?_ .nil, htable, hcur, hready⟩
  show (ExitCall.proc (.sendFork Message.zero)).apply (initProcess (Procs.boot 0), none) = _
  rw [ExitCall.apply, hfork]
  rfl

/-- The parent exits by `exit_process`, and does not by `process_exit`. -/
theorem exits_disagree_parent : ∃ t, t.currentProcess = some (.slot 0) ∧
    (∃ u, exitProcess t 42 = .ok u ∧ ExitsTo [.slot 1, .slot 0] (.slot 0) t u 42) ∧
      processExit t none 42 = .error .null ∧ ¬ ExitsAgree [.slot 1, .slot 0] t none 42 := by
  obtain ⟨t, hrun, htable, hcur, hready⟩ := forked
  exact ⟨t, hcur, exits_disagree (Nat.zero_le _) hrun htable.listed.linked hcur
    (List.mem_cons_self ..) hready 42⟩

/-- **A parent whose child is ready calls `process_exit`**: it does not get to the child. -/
theorem process_exit_stops : ∃ t, exitLts.Run (initProcess (Procs.boot 0), none)
      [.proc (.sendFork Message.zero)] (t, none) ∧
    t.currentProcess = some (.slot 0) ∧ (t.proc (.slot 1)).state = .ready ∧
    processExit t none 0 = .error .null ∧ ¬ ExitsAgree [.slot 1, .slot 0] t none 0 := by
  obtain ⟨t, hrun, htable, hcur, hready⟩ := forked
  have hnull : processExit t none 0 = .error .null := by
    rw [processExit_halts htable, if_pos ⟨.slot 1, List.mem_cons_self .., hready⟩]
  refine ⟨t, hrun, hcur, hready, hnull, ?_⟩
  rintro ⟨c, u, q, -, hexit, -⟩
  rw [hnull] at hexit
  cases hexit

end Exits

end OsArm
