import OsArm.Proc.Waiting

/-!
# The idle loop of `schedule`

`schedule` looks for a ready process, and stops for good when it finds none, also when the process
that has called it is running.

* `CallsSchedule` — the state in which a call enters `schedule`: after its own stores.
* `apply_eq_schedule` — the call then does what `schedule` does from there.
* `KeepsGoing` — a system that has something to run does not idle.
* `keepsGoing_iff` — so it is, at every call of `schedule` in every run, exactly where some process
  is ready or the current one is not running.
-/

namespace OsArm

/-! ## Where `schedule` is called -/

/-- The call enters `schedule` in the state `u`. -/
inductive CallsSchedule (s : Procs) : ProcCall → Procs → Prop
  | schedule : CallsSchedule s .schedule s
  | waitForChild {c : ProcPtr} : s.currentProcess = some c →
      CallsSchedule s .waitForChild (s.setState c .blocked)
  | sendWait {c : ProcPtr} (msg : Message) : s.currentProcess = some c → exitedChild s c = none →
      CallsSchedule s (.sendWait msg) (s.setState c .blocked)
  | handleWaitMessage {c : ProcPtr} (msg : Message) : s.currentProcess = some c →
      exitedChild s c = none → CallsSchedule s (.handleWaitMessage msg) (s.setState c .blocked)
  | receiveMessage {c : ProcPtr} (msg : Message) : s.currentProcess = some c →
      (s.proc c).msgQueue.count = 0 → msg.flags &&& msgNonblock = 0 →
      CallsSchedule s (.receiveMessage msg) (s.setMsgBlocked c 1)
  | exitProcess {c : ProcPtr} {parent : Option ProcPtr} (status : Int) : s.currentProcess = some c →
      findProcess (markExited s c status) (s.proc c).parentPid = .ok parent →
      CallsSchedule s (.exitProcess status) (wake (markExited s c status) parent)

/-- There is something to run. -/
def Runnable (ps : List ProcPtr) (u : Procs) : Prop :=
  (∃ c, u.currentProcess = some c ∧ (u.proc c).state = .running) ∨
    ∃ p ∈ ps, (u.proc p).state = .ready

/-- **A system that has something to run does not idle**: `schedule` returns, with a current process
that is running. -/
def KeepsGoing (ps : List ProcPtr) (u : Procs) : Prop :=
  Runnable ps u → ∃ v n, schedule u = .ok v ∧ v.currentProcess = some n ∧
    (v.proc n).state = .running

section Idling

variable {ps : List ProcPtr} {c : ProcPtr} {s t u : Procs} {call : ProcCall}

/-- **Every call of `schedule`** is made by a process that is not ready, and finds a table. -/
theorem CallsSchedule.handover (h : Table ps s) (hu : CallsSchedule s call u) :
    ∃ c, Handover ps c u ∧ (u.proc c).state ≠ .ready := by
  cases hu with
  | schedule =>
    obtain ⟨c, hc, hrun⟩ := h.handover
    exact ⟨c, hc, by simp [hrun]⟩
  | @waitForChild c hc | @sendWait c msg hc hnone | @handleWaitMessage c msg hc hnone =>
    refine ⟨c, (h.handover_of hc).1.blocked, ?_⟩
    rw [Procs.setState_state, if_pos rfl]
    decide
  | @receiveMessage c msg hc hcount hflags =>
    obtain ⟨hd, hrun⟩ := h.handover_of hc
    refine ⟨c, hd.msgBlocked 1, ?_⟩
    rw [Procs.setMsgBlocked_state, hrun]
    decide
  | @exitProcess c parent status hc hparent =>
    refine ⟨c, (h.handover_of hc).1.exited status parent, ?_⟩
    rw [exited_state]
    decide

/-- The call does what `schedule` does, from the state in which it calls it. -/
theorem apply_eq_schedule (h : Table ps s) (hu : CallsSchedule s call u) :
    call.apply s = schedule u := by
  have hanswer : ∀ {α : Type} (r : Except Halt Procs) (f : Procs → α),
      ((r >>= fun t => pure (t, f t)).map Prod.fst : Except Halt Procs) = r := by
    intro α r f
    cases r <;> rfl
  cases hu with
  | schedule => rfl
  | waitForChild hc =>
    rw [ProcCall.apply, OsArm.waitForChild, Procs.getCurrentProcess_eq hc]
    rfl
  | sendWait msg hc hnone =>
    rw [ProcCall.apply, h.sendWait_none hc hnone]
    exact hanswer _ _
  | handleWaitMessage msg hc hnone =>
    rw [ProcCall.apply, h.handleWaitMessage_none hc hnone]
    exact hanswer _ _
  | @receiveMessage c msg hc hcount hflags =>
    rw [ProcCall.apply, OsArm.receiveMessage, Procs.getCurrentProcess_eq hc, ok_bind]
    dsimp only
    rw [if_pos hcount, if_pos hflags]
    exact hanswer _ _
  | @exitProcess c parent status hc hparent =>
    have hfield : ((markExited s c status).proc c).parentPid = (s.proc c).parentPid :=
      Procs.modify_field (·.parentPid) fun _ => rfl
    rw [ProcCall.apply, OsArm.exitProcess, Procs.getCurrentProcess_eq hc, ok_bind]
    dsimp only
    rw [hfield, hparent]
    rfl

/-- **`schedule` goes on** if and only if a process is ready; a current process that is running does
not help. -/
theorem Handover.goesOn_iff (h : Handover ps c u) (hc : (u.proc c).state ≠ .ready) :
    KeepsGoing ps u ↔ (∃ p ∈ ps, (u.proc p).state = .ready) ∨ (u.proc c).state ≠ .running := by
  have hrunnable : Runnable ps u ↔
      (u.proc c).state = .running ∨ ∃ p ∈ ps, (u.proc p).state = .ready := by
    unfold Runnable
    rw [h.current]
    simp
  unfold KeepsGoing
  rw [hrunnable, h.schedule_eq]
  cases hfind : ps.find? fun p => decide ((u.proc p).state = .ready) with
  | none =>
    have hnone : ¬ ∃ p ∈ ps, (u.proc p).state = .ready := by
      rintro ⟨p, hp, hready⟩
      exact List.find?_eq_none.1 hfind p hp (decide_eq_true hready)
    rw [or_iff_left hnone, or_iff_right hnone]
    constructor
    · intro hgo hrun
      obtain ⟨v, n, hv, -⟩ := hgo hrun
      cases hv
    · exact fun hnot hrun => absurd hrun hnot
  | some n =>
    have hready : (u.proc n).state = .ready := by simpa using List.find?_some hfind
    have hcn : c ≠ n := by
      rintro rfl
      exact hc hready
    refine iff_of_true (fun _ => ⟨switchTo u c n, n, rfl, switchTo_currentProcess, ?_⟩)
      (Or.inl ⟨n, List.mem_of_find?_eq_some hfind, hready⟩)
    rw [switchTo_state hcn, if_pos rfl]

/-- **When the scheduler idles.**  At every call of `schedule` in every run from `init_process` on,
by whatever call it is made: a system that has something to run goes on if and only if some process
of the list is ready or the current one is not running. -/
theorem keepsGoing_iff {tr : List (ProcCall × Option ProcPtr)} (hheap : s.heap.pos ≤ heapSize)
    (hrun : procLts.Run (initProcess s) tr t) (hu : CallsSchedule t call u) :
    KeepsGoing (created tr) u ↔ (∃ p ∈ created tr, (u.proc p).state = .ready) ∨
      ∀ c, u.currentProcess = some c → (u.proc c).state ≠ .running := by
  obtain ⟨htable, -⟩ := table_run hheap hrun
  obtain ⟨c, hc, hready⟩ := hu.handover htable
  rw [hc.goesOn_iff hready, hc.current]
  simp only [Option.some.injEq, forall_eq']

/-- A parent that waits for its child keeps the system going. -/
theorem keepsGoing_iff_wait : ∃ t u, procLts.Run (initProcess (Procs.boot 0))
      [(.sendFork Message.zero, some (.slot 1))] t ∧ CallsSchedule t .waitForChild u ∧
    KeepsGoing [.slot 1, .slot 0] u := by
  obtain ⟨t, hrun, hcur, hready⟩ : ∃ t, procLts.Run (initProcess (Procs.boot 0))
      [(.sendFork Message.zero, some (.slot 1))] t ∧ t.currentProcess = some (.slot 0) ∧
      (t.proc (.slot 1)).state = .ready :=
    ⟨_, run_call .nil (.sendFork Message.zero) rfl, rfl, rfl⟩
  have hchild : ((t.setState (.slot 0) .blocked).proc (.slot 1)).state = .ready := by
    rw [Procs.setState_state, if_neg (by decide), hready]
  have hu := CallsSchedule.waitForChild hcur
  exact ⟨t, _, hrun, hu,
    (keepsGoing_iff (Nat.zero_le _) hrun hu).2 (Or.inl ⟨.slot 1, by decide, hchild⟩)⟩

/-- **A timer tick while the only process is running** stops the system. -/
theorem tick_idles : schedule (initProcess (Procs.boot 0)) = .error .idle ∧
    Runnable [.slot 0] (initProcess (Procs.boot 0)) ∧
    ¬ KeepsGoing [.slot 0] (initProcess (Procs.boot 0)) := by
  have hidle : schedule (initProcess (Procs.boot 0)) = .error .idle := by
    obtain ⟨c, hc, -⟩ := (table_init (s := Procs.boot 0) (Nat.zero_le _)).handover
    rw [hc.schedule_eq]
    rfl
  have hrunnable : Runnable [.slot 0] (initProcess (Procs.boot 0)) := Or.inl ⟨.slot 0, rfl, rfl⟩
  refine ⟨hidle, hrunnable, ?_⟩
  intro hgo
  obtain ⟨v, n, hv, -⟩ := hgo hrunnable
  rw [hidle] at hv
  cases hv

end Idling

end OsArm
