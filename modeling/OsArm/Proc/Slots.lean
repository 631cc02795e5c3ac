import OsArm.Proc.Waiting

/-!
# The slots of the process table

`create_process` takes `processes[process_count++]` and never compares the index with
`MAX_PROCESSES`; the two requests to fork test its answer for `NULL`.

* `Occupied` — a process that is not dead has the slot.
* `ForksInside` — a fork takes a free slot of the table, or is refused when there is none.
* `forksInside_iff` — in every run it does exactly as long as `process_count` is below
  `MAX_PROCESSES`: three forks, whatever has exited and been reaped in between.
-/

namespace OsArm

/-- The two requests to fork: `MSG_FORK` and `handle_fork_message`. -/
inductive ForkRequest
  | msgFork (msg : Message)
  | handleFork (msg : Message)

namespace ForkRequest

/-- What the request leaves, with its message and its answer. -/
def run (s : Procs) : ForkRequest → Except Halt (Procs × Message × Int)
  | msgFork msg => sendFork s msg
  | handleFork msg => handleForkMessage s msg

/-- The request as a call of the process code. -/
def call : ForkRequest → ProcCall
  | msgFork msg => .sendFork msg
  | handleFork msg => .handleForkMessage msg

theorem apply_call (s : Procs) (r : ForkRequest) : r.call.apply s = (r.run s).map (·.1) := by
  cases r <;> rfl

end ForkRequest

/-- Slot `i` is taken by a process of the list that is not dead. -/
def Occupied (ps : List ProcPtr) (s : Procs) (i : Nat) : Prop :=
  .slot i ∈ ps ∧ (s.proc (.slot i)).state ≠ .dead

/-- From `s` to `t` slot `i` is taken: its record is written and no other, and its process gets the
stack with the same index. -/
structure Takes (s : Procs) (i : Nat) (t : Procs) : Prop where
  others : ∀ p ≠ .slot i, t.proc p = s.proc p
  sp : (t.proc (.slot i)).sp = s.stackTop i

/-- **A fork stays inside the process table**: it writes to no record behind it, takes a slot that
nobody has, or, where there is none, answers -1 and leaves everything as it is. -/
structure ForksInside (ps : List ProcPtr) (s : Procs) (r : ForkRequest) : Prop where
  inside : r.run s ≠ .error .bounds
  takes : ∀ t msg n, r.run s = .ok (t, msg, n) → n ≠ -1 →
    ∃ i < maxProcesses, ¬ Occupied ps s i ∧ Takes s i t
  refused : (∀ i < maxProcesses, Occupied ps s i) → ∃ msg, r.run s = .ok (s, msg, -1)

section Slots

variable {ps : List ProcPtr} {s t : Procs} {r : ForkRequest}

/-- With a slot left, a request takes the next one. -/
theorem ForkRequest.run_ok {c : ProcPtr} {msg : Message} {n : Int} (hc : s.currentProcess = some c)
    (hne : c ≠ .slot s.processCount) (h : r.run s = .ok (t, msg, n)) :
    Takes s s.processCount t := by
  have happly : r.call.apply s = .ok t := by
    rw [r.apply_call, h]
    rfl
  have hforks : r.call.forks = true := by cases r <;> rfl
  have hfork := forked_of_apply hc hne hforks happly
  exact ⟨hfork.others, hfork.sp⟩

/-- Without one, it writes behind the table. -/
theorem ForkRequest.run_full {c : ProcPtr} (hc : s.currentProcess = some c)
    (hfull : maxProcesses ≤ s.processCount) (r : ForkRequest) : r.run s = .error .bounds := by
  cases r with
  | msgFork m =>
    show sendFork s m = _
    rw [sendFork, createProcess_full hc hfull]
    rfl
  | handleFork m =>
    show handleForkMessage s m = _
    rw [handleForkMessage, Procs.getCurrentProcess_eq hc, ok_bind, createProcess_full hc hfull]
    rfl

/-- The next slot is free. -/
theorem Listed.not_occupied (h : Listed ps s) : ¬ Occupied ps s s.processCount :=
  fun hocc => Nat.lt_irrefl _ (h.slot_lt _ hocc.1)

/-- **A request stays inside** if and only if `process_count` is below `MAX_PROCESSES`. -/
theorem Table.runs_inside_iff (h : Table ps s) :
    ForksInside ps s r ↔ s.processCount < maxProcesses := by
  obtain ⟨c, hd, -⟩ := h.handover
  constructor
  · intro hr
    by_contra hfull
    exact hr.inside (r.run_full hd.current (Nat.not_lt.1 hfull))
  · intro hroom
    refine ⟨?_, ?_, ?_⟩
    · intro hbounds
      have happly : r.call.apply s = .error .bounds := by
        rw [r.apply_call, hbounds]
        rfl
      rcases (h.apply r.call).2 _ happly with hidle | ⟨-, -, hfull⟩
      · cases hidle
      · omega
    · intro t msg n hok _
      exact ⟨s.processCount, hroom, h.listed.not_occupied,
        ForkRequest.run_ok hd.current (h.slot_fresh hd.mem) hok⟩
    · intro hall
      exact absurd (hall _ hroom) h.listed.not_occupied

/-- **Forking stays inside the process table** in a run from `init_process` on for exactly as long
as `process_count` is below `MAX_PROCESSES`: up to there no two processes share a slot and every
slot lies in the table; the next request to fork stays inside if and only if fewer than
`MAX_PROCESSES - 1` slots have been taken since `init_process`. -/
theorem forksInside_iff {tr : List (ProcCall × Option ProcPtr)} (hheap : s.heap.pos ≤ heapSize)
    (hrun : procLts.Run (initProcess s) tr t) :
    (created tr).Nodup ∧ (∀ i, .slot i ∈ created tr → i < maxProcesses) ∧
      ∀ r, ForksInside (created tr) t r ↔ (tr.countP fun a => a.1.forks) + 1 < maxProcesses := by
  obtain ⟨htable, hcount⟩ := table_run hheap hrun
  refine ⟨htable.listed.linked.nodup, ?_, ?_⟩
  · intro i hi
    exact Nat.lt_of_lt_of_le (htable.listed.slot_lt i hi) htable.listed.count_le
  · intro r
    rw [htable.runs_inside_iff, hcount, Nat.add_comm]

/-- Two forks, and the third one, which takes the last slot. -/
theorem forksInside_iff_third : ∃ t, procLts.Run (initProcess (Procs.boot 0))
      [(.sendFork Message.zero, some (.slot 1)), (.sendFork Message.zero, some (.slot 2))] t ∧
    ForksInside [.slot 2, .slot 1, .slot 0] t (.msgFork Message.zero) := by
  have hone := run_call (.nil (s := initProcess (Procs.boot 0))) (.sendFork Message.zero) rfl
  have htwo := run_call hone (.sendFork Message.zero) rfl
  exact ⟨_, htwo, ((forksInside_iff (Nat.zero_le _) htwo).2.2 _).2 (by decide)⟩

/-- **The fourth fork**: every slot is taken, and it writes behind the table instead of answering
-1. -/
theorem fourth_fork_outside : ∃ t, procLts.Run (initProcess (Procs.boot 0))
      [(.sendFork Message.zero, some (.slot 1)), (.sendFork Message.zero, some (.slot 2)),
        (.sendFork Message.zero, some (.slot 3))] t ∧
    (∀ i < maxProcesses, Occupied [.slot 3, .slot 2, .slot 1, .slot 0] t i) ∧
    (ForkRequest.msgFork Message.zero).run t = .error .bounds ∧
    ¬ ForksInside [.slot 3, .slot 2, .slot 1, .slot 0] t (.msgFork Message.zero) := by
  obtain ⟨t, hrun, hcur, hcount, h0, h1, h2, h3⟩ : ∃ t, procLts.Run (initProcess (Procs.boot 0))
      [(.sendFork Message.zero, some (.slot 1)), (.sendFork Message.zero, some (.slot 2)),
        (.sendFork Message.zero, some (.slot 3))] t ∧
      t.currentProcess = some (.slot 0) ∧ t.processCount = maxProcesses ∧
      (t.proc (.slot 0)).state = .running ∧ (t.proc (.slot 1)).state = .ready ∧
      (t.proc (.slot 2)).state = .ready ∧ (t.proc (.slot 3)).state = .ready := by
    have hone := run_call (.nil (s := initProcess (Procs.boot 0))) (.sendFork Message.zero) rfl
    have htwo := run_call hone (.sendFork Message.zero) rfl
    exact ⟨_, run_call htwo (.sendFork Message.zero) rfl, rfl, rfl, rfl, rfl, rfl, rfl⟩
  have hfull := ForkRequest.run_full hcur hcount.ge (.msgFork Message.zero)
  refine ⟨t, hrun, ?_, hfull, fun hinside => hinside.inside hfull⟩
  intro i hi
  match i, hi with
  | 0, _ => exact ⟨by decide, by simp [h0]⟩
  | 1, _ => exact ⟨by decide, by simp [h1]⟩
  | 2, _ => exact ⟨by decide, by simp [h2]⟩
  | 3, _ => exact ⟨by decide, by simp [h3]⟩

end Slots

end OsArm
