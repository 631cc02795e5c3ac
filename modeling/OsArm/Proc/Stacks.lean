import OsArm.Proc.Start

/-!
# Kernel stacks

Four functions hand out stacks: `create_process` the one of the slot it takes,
`handle_fork_message` what the caller's context says, `exec_process` the one of the
last slot taken, `handle_exec_message` a fixed address.

* `StackState` — the kernel with the stack pointers that C code has stored in
  `ctx.sp`, which a context switch overwrites.
* `Separate` — no two processes have a stack in common.
* `StackCall.Apart` — what a call has to find so that it stays so.
* `separate_run` — the processes are separate as long as every call finds that, and
  the first call that does not ends it.
-/

namespace OsArm

/-! ## Calls that hand out stacks -/

/-- A call that creates a process or sets one up, a switch, or the current process
changing registers. -/
inductive StackCall
  | createProcess
  | handleForkMessage (msg : Message)
  | execProcess (path : Str)
  | handleExecMessage (argc : Nat) (msg : Message)
  | schedule
  | compute (cpu : Cpu)

/-- The kernel, and for each process what C code has stored last in `ctx.sp`. -/
structure StackState where
  kernel : Kernel
  stored : ProcPtr → UInt64

namespace StackCall

/-- The call of the kernel. -/
def kernelCall : StackCall → KernelCall
  | createProcess => .proc .createProcess
  | handleForkMessage msg => .proc (.handleForkMessage msg)
  | execProcess path => .execProcess path
  | handleExecMessage argc msg => .handleExecMessage argc msg
  | schedule => .proc .schedule
  | compute cpu => .proc (.compute cpu)

/-- The `ctx.sp` a call stores, and for which process. -/
def stores (s : Procs) : StackCall → Option (ProcPtr × UInt64)
  | createProcess => some (.slot s.processCount, s.stackTop s.processCount)
  | handleForkMessage _ =>
    s.currentProcess.map fun c => (.slot s.processCount, (s.proc c).ctx.sp)
  | handleExecMessage _ msg =>
    if msg.path.isNone then none else s.currentProcess.map fun c => (c, processStackTop)
  | _ => none

end StackCall

/-- What is stored after a call. -/
def StackState.record (s : StackState) (call : StackCall) : ProcPtr → UInt64 :=
  match call.stores s.kernel.procs with
  | none => s.stored
  | some (p, v) => Function.update s.stored p v

/-- The kernel with that record. -/
def stackLts : Lts StackState StackCall where
  step s call t := call.kernelCall.apply s.kernel = .ok t.kernel ∧ t.stored = s.record call

/-- After `init_process`. -/
def StackState.init (s : Procs) (vfs : Vfs) : StackState where
  kernel := { procs := initProcess s, vfs := vfs }
  stored := fun _ => s.stackTop 0

/-! ## Separation -/

/-- Two numbered families of stack pointers, `n` of each, in which different
numbers never meet. -/
def SeparateBelow (n : Nat) (sp st : Nat → UInt64) : Prop :=
  ∀ i < n, ∀ j < n, i ≠ j → sp i ≠ sp j ∧ st i ≠ st j ∧ sp i ≠ st j

/-- No two processes have a stack pointer in common, be it `sp` or `ctx.sp`.  No call
here ends a process, so all of them are live. -/
def StackState.Separate (s : StackState) : Prop :=
  SeparateBelow s.kernel.procs.processCount (fun i => (s.kernel.procs.proc (.slot i)).sp)
    fun i => s.stored (.slot i)

/-- What a call has to find.  The stack of the next slot, and what a fork copies from
its caller, is nobody's `ctx.sp` yet; a program is loaded by the process of the last
slot taken; the fixed address is nobody else's. -/
def StackCall.Apart (s : StackState) (call : StackCall) : Prop :=
  let procs := s.kernel.procs
  match call with
  | createProcess =>
    ∀ i < procs.processCount, s.stored (.slot i) ≠ procs.stackTop procs.processCount
  | handleForkMessage _ => ∀ c, procs.currentProcess = some c → ∀ i < procs.processCount,
      s.stored (.slot i) ≠ procs.stackTop procs.processCount ∧
      (procs.proc c).ctx.sp ≠ s.stored (.slot i) ∧ (procs.proc c).ctx.sp ≠ (procs.proc (.slot i)).sp
  | execProcess path => ∀ c, procs.currentProcess = some c →
      0 ≤ (loadProgram { s.kernel.vfs with heap := procs.heap } path).1 →
      c = .slot (procs.processCount - 1)
  | handleExecMessage _ msg => ∀ c, procs.currentProcess = some c → msg.path ≠ none →
      ∀ i < procs.processCount, ProcPtr.slot i ≠ c →
        s.stored (.slot i) ≠ processStackTop ∧ (procs.proc (.slot i)).sp ≠ processStackTop
  | schedule | compute _ => True

section Below

variable {n : Nat} {sp sp' st st' : Nat → UInt64} {v : UInt64} {c : Nat}

theorem SeparateBelow.congr (hsp : ∀ i < n, sp' i = sp i) (hst : ∀ i < n, st' i = st i) :
    SeparateBelow n sp' st' ↔ SeparateBelow n sp st := by
  constructor
  · intro h i hi j hj hij
    rw [← hsp i hi, ← hsp j hj, ← hst i hi, ← hst j hj]
    exact h i hi j hj hij
  · intro h i hi j hj hij
    rw [hsp i hi, hsp j hj, hst i hi, hst j hj]
    exact h i hi j hj hij

/-- One more number. -/
theorem SeparateBelow.succ (h : SeparateBelow n sp st) (hsp : ∀ i < n, sp i ≠ sp n) :
    SeparateBelow (n + 1) sp st ↔ ∀ i < n, st i ≠ sp n ∧ st n ≠ st i ∧ st n ≠ sp i := by
  constructor
  · intro h' i hi
    obtain ⟨-, h2, h3⟩ := h' i (by omega) n (by omega) (by omega)
    obtain ⟨-, -, h4⟩ := h' n (by omega) i (by omega) (by omega)
    exact ⟨h4.symm, h2.symm, h3.symm⟩
  · intro h' i hi j hj hij
    by_cases hin : i = n
    · subst hin
      obtain ⟨h1, h2, h3⟩ := h' j (by omega)
      exact ⟨(hsp j (by omega)).symm, h2, h1.symm⟩
    · by_cases hjn : j = n
      · subst hjn
        obtain ⟨h1, h2, h3⟩ := h' i (by omega)
        exact ⟨hsp i (by omega), h2.symm, h3.symm⟩
      · exact h i (by omega) j (by omega) hij

/-- One pointer is stored anew. -/
theorem SeparateBelow.store (h : SeparateBelow n sp st) (hc : c < n) (hv : st' c = v)
    (hst : ∀ i < n, i ≠ c → st' i = st i) :
    SeparateBelow n sp st' ↔ ∀ i < n, i ≠ c → st i ≠ v ∧ sp i ≠ v := by
  constructor
  · intro h' i hi hic
    obtain ⟨-, h2, h3⟩ := h' i hi c hc hic
    rw [hv, hst i hi hic] at h2
    rw [hv] at h3
    exact ⟨h2, h3⟩
  · intro h' i hi j hj hij
    obtain ⟨h1, h2, h3⟩ := h i hi j hj hij
    refine ⟨h1, ?_⟩
    by_cases hic : i = c
    · subst hic
      rw [hv, hst j hj hij.symm]
      exact ⟨(h' j hj hij.symm).1.symm, h3⟩
    · by_cases hjc : j = c
      · subst hjc
        rw [hv, hst i hi hic]
        exact h' i hi hic
      · rw [hst i hi hic, hst j hj hjc]
        exact ⟨h2, h3⟩

end Below

/-! ## The stacks themselves -/

section Tops

variable {s t : Procs} {c : ProcPtr} {new : Option ProcPtr} {ps : List ProcPtr}

/-- The stacks of different slots have different tops. -/
theorem stackTop_inj {i j : Nat} (hi : i < maxProcesses) (hj : j < maxProcesses)
    (h : s.stackTop i = s.stackTop j) : i = j := by
  have h' := congrArg UInt64.toNat h
  simp only [Procs.stackTop, UInt64.toNat_add, UInt64.toNat_ofNat', processStackSize,
    maxProcesses] at h' hi hj
  omega

theorem Update.processStacks (h : Update c new s t) : t.processStacks = s.processStacks := by
  cases h with
  | record entry hq =>
    unfold processCreate
    cases kalloc s.heap sizeofProcess <;> rfl
  | _ => rfl

/-- What a call of the process code does to the stacks: those of the processes there
are stay. -/
theorem Table.stacks {call : ProcCall} (h : Table ps s) (hcall : call.apply s = .ok t) :
    t.processStacks = s.processStacks ∧
      ∀ p, call.creates s ≠ some p → (t.proc p).sp = (s.proc p).sp := by
  obtain ⟨c, hc, -⟩ := h.handover
  constructor
  · have hupdates := apply_updates hc.current hcall
    clear hcall
    induction hupdates with
    | refl => rfl
    | tail _ hlast ih => rw [hlast.processStacks, ih]
  · intro p hp
    exact field_of_apply (g := (·.sp)) ⟨fun _ _ => rfl, fun _ _ => rfl, fun _ _ => rfl⟩
      (.inr fun _ _ _ => rfl) (.inr fun _ _ => rfl) hp hc.current hcall

/-- The stack of a new process is that of its slot. -/
theorem linkChild_sp {n : ProcPtr} :
    ((linkChild s n c).proc n).sp = s.stackTop s.processCount := by
  simp [linkChild, setUpChild, Procs.modify]

theorem setUpFork_sp {n p : ProcPtr} (entry : UInt64) :
    ((setUpFork s n c entry).proc p).sp = (s.proc p).sp := Procs.modify_field (·.sp) fun _ => rfl

theorem setUpExec_sp {p : ProcPtr} (argc : Nat) (msg : Message) :
    ((setUpExec s c argc msg).proc p).sp = (s.proc p).sp := Procs.modify_field (·.sp) fun _ => rfl

/-- The stack of a program is that of the last slot taken. -/
theorem setUpProgram_sp {p : ProcPtr} (hcount : 0 < s.processCount) :
    ((setUpProgram s c).proc p).sp =
      if p = c then s.stackTop (s.processCount - 1) else (s.proc p).sp := by
  rw [setUpProgram]
  split
  · next hp =>
    rw [hp, Procs.modify_proc_self, Procs.stackTop, Nat.sub_add_cancel hcount]
  · next hp => rw [Procs.modify_proc_of_ne hp]

end Tops

/-! ## One call -/

/-- Every process has the stack of its slot as `sp`, and they are separate. -/
structure Stacked (s : StackState) : Prop where
  table : ∃ ps, Table ps s.kernel.procs ∧ ∀ p ∈ ps, ∃ i, p = .slot i
  count_pos : 0 < s.kernel.procs.processCount
  sp_eq : ∀ i < s.kernel.procs.processCount,
    (s.kernel.procs.proc (.slot i)).sp = s.kernel.procs.stackTop i
  separate : s.Separate

section Step

variable {s t : StackState} {call : StackCall}

/-- The current process is one of the slots. -/
theorem Stacked.current (h : Stacked s) :
    ∃ i < s.kernel.procs.processCount, s.kernel.procs.currentProcess = some (.slot i) := by
  obtain ⟨ps, htable, hslots⟩ := h.table
  obtain ⟨c, hc, hcur, -⟩ := htable.running
  obtain ⟨i, rfl⟩ := hslots c hc
  exact ⟨i, htable.listed.slot_lt i hc, hcur⟩

theorem stackTop_congr {s t : Procs} (h : t.processStacks = s.processStacks) (i : Nat) :
    t.stackTop i = s.stackTop i := by
  rw [Procs.stackTop, Procs.stackTop, h]

/-- **A process more.**  A new slot with the stack of its own as `sp` and `v` as
`ctx.sp`. -/
theorem Stacked.grow {v : UInt64} {call : ProcCall} (h : Stacked s)
    (hstep : call.apply s.kernel.procs = .ok t.kernel.procs)
    (hcreates : call.creates s.kernel.procs = some (.slot s.kernel.procs.processCount))
    (hforks : call.forks = true)
    (hsp : (t.kernel.procs.proc (.slot s.kernel.procs.processCount)).sp =
      s.kernel.procs.stackTop s.kernel.procs.processCount)
    (hstored : t.stored = Function.update s.stored (.slot s.kernel.procs.processCount) v) :
    (t.Separate ↔ ∀ i < s.kernel.procs.processCount,
      s.stored (.slot i) ≠ s.kernel.procs.stackTop s.kernel.procs.processCount ∧
      v ≠ s.stored (.slot i) ∧ v ≠ (s.kernel.procs.proc (.slot i)).sp) ∧
    (t.Separate → Stacked t) := by
  obtain ⟨ps, htable, hslots⟩ := h.table
  obtain ⟨hstacks, hkeep⟩ := htable.stacks hstep
  have hsteps := (htable.apply call).1 _ hstep
  have hcount : t.kernel.procs.processCount = s.kernel.procs.processCount + 1 := by
    rw [hsteps.processCount, hforks]
    rfl
  have hold : ∀ i < s.kernel.procs.processCount,
      ProcPtr.slot i ≠ .slot s.kernel.procs.processCount := by
    intro i hi heq
    cases heq
    exact Nat.lt_irrefl _ hi
  have hspt : ∀ i < s.kernel.procs.processCount,
      (t.kernel.procs.proc (.slot i)).sp = (s.kernel.procs.proc (.slot i)).sp := by
    intro i hi
    refine hkeep _ fun heq => hold i hi ?_
    rw [hcreates] at heq
    exact (Option.some.inj heq).symm
  have hstt : ∀ i < s.kernel.procs.processCount, t.stored (.slot i) = s.stored (.slot i) := by
    intro i hi
    rw [hstored, Function.update_of_ne (hold i hi)]
  have hnew : t.stored (.slot s.kernel.procs.processCount) = v := by
    rw [hstored, Function.update_self]
  have hle := hsteps.table.listed.count_le
  have hdistinct : ∀ i < s.kernel.procs.processCount,
      (t.kernel.procs.proc (.slot i)).sp ≠
        (t.kernel.procs.proc (.slot s.kernel.procs.processCount)).sp := by
    intro i hi heq
    rw [hspt i hi, hsp, h.sp_eq i hi] at heq
    have hij := stackTop_inj (by omega) (by omega) heq
    omega
  have hbelow : SeparateBelow s.kernel.procs.processCount
      (fun i => (t.kernel.procs.proc (.slot i)).sp) fun i => t.stored (.slot i) :=
    (SeparateBelow.congr hspt hstt).2 h.separate
  constructor
  · rw [StackState.Separate, hcount, hbelow.succ hdistinct, hsp, hnew]
    refine forall₂_congr ?_
    intro i hi
    rw [hstt i hi, hspt i hi]
  · intro hsep
    refine ⟨⟨_, hsteps.table, fun p hp => ?_⟩, by omega, fun i hi => ?_, hsep⟩
    · rw [hcreates] at hp
      rcases List.mem_append.1 hp with hp | hp
      · exact ⟨_, List.mem_singleton.1 hp⟩
      · exact hslots p hp
    · rw [stackTop_congr hstacks]
      by_cases hin : i = s.kernel.procs.processCount
      · rw [hin, hsp]
      · rw [hspt i (by omega), h.sp_eq i (by omega)]

/-- **No process more.**  Nothing is created and `sp` stays. -/
theorem Stacked.keep (h : Stacked s)
    (htable : ∃ ps, Table ps t.kernel.procs ∧ ∀ p ∈ ps, ∃ i, p = .slot i)
    (hcount : t.kernel.procs.processCount = s.kernel.procs.processCount)
    (hstacks : t.kernel.procs.processStacks = s.kernel.procs.processStacks)
    (hsp : ∀ p, (t.kernel.procs.proc p).sp = (s.kernel.procs.proc p).sp) :
    t.Separate → Stacked t := by
  intro hsep
  refine ⟨htable, by rw [hcount]; exact h.count_pos, fun i hi => ?_, hsep⟩
  rw [hcount] at hi
  rw [hsp, stackTop_congr hstacks, h.sp_eq i hi]

/-- A switch or a computation hands out nothing. -/
theorem Stacked.quiet {call : ProcCall} (h : Stacked s)
    (hstep : call.apply s.kernel.procs = .ok t.kernel.procs)
    (hcreates : call.creates s.kernel.procs = none) (hforks : call.forks = false)
    (hstored : t.stored = s.stored) : t.Separate ∧ Stacked t := by
  obtain ⟨ps, htable, hslots⟩ := h.table
  obtain ⟨hstacks, hkeep⟩ := htable.stacks hstep
  have hsteps := (htable.apply call).1 _ hstep
  have hcount : t.kernel.procs.processCount = s.kernel.procs.processCount := by
    rw [hsteps.processCount, hforks]
    rfl
  have hsp : ∀ p, (t.kernel.procs.proc p).sp = (s.kernel.procs.proc p).sp :=
    fun p => hkeep p (by simp [hcreates])
  have hsep : t.Separate := by
    rw [StackState.Separate, hcount]
    exact (SeparateBelow.congr (fun i _ => hsp _) fun i _ => congrFun hstored _).2 h.separate
  have htable' := hsteps.table
  rw [hcreates] at htable'
  exact ⟨hsep, h.keep ⟨ps, htable', hslots⟩ hcount hstacks hsp hsep⟩

/-- The state of the processes after a call of the process code. -/
theorem procs_of_step {call : ProcCall} {k l : Kernel}
    (h : (KernelCall.proc call).apply k = .ok l) :
    call.apply k.procs = .ok l.procs := by
  obtain ⟨u, hu, rfl⟩ := ok_of_map h
  exact hu

/-- `create_process`. -/
theorem Stacked.createProcess (h : Stacked s) (hstep : stackLts.step s .createProcess t) :
    (t.Separate ↔ StackCall.createProcess.Apart s) ∧ (t.Separate → Stacked t) := by
  obtain ⟨ps, htable, -⟩ := h.table
  obtain ⟨c, hclt, hcur⟩ := h.current
  have happly := procs_of_step hstep.1
  obtain ⟨⟨u, n⟩, hu, ht⟩ := ok_of_map happly
  obtain ⟨rfl, rfl⟩ := createProcess_ok hcur hu
  have hsp :=
    (congrArg (fun r : Procs => (r.proc (.slot s.kernel.procs.processCount)).sp) ht).symm.trans
    linkChild_sp
  obtain ⟨hiff, hstacked⟩ := h.grow happly rfl rfl hsp hstep.2
  refine ⟨hiff.trans ?_, hstacked⟩
  have hle := ((htable.apply _).1 _ happly).table.listed.count_le
  rw [((htable.apply _).1 _ happly).processCount] at hle
  refine forall₂_congr fun i hi => ⟨And.left, fun hne => ⟨hne, hne.symm, ?_⟩⟩
  rw [h.sp_eq i hi]
  intro heq
  have hij := stackTop_inj (Nat.lt_of_succ_le hle) (by omega) heq
  omega

/-- `handle_fork_message`. -/
theorem Stacked.handleForkMessage (h : Stacked s) {msg : Message}
    (hstep : stackLts.step s (.handleForkMessage msg) t) :
    (t.Separate ↔ (StackCall.handleForkMessage msg).Apart s) ∧ (t.Separate → Stacked t) := by
  obtain ⟨c, hclt, hcur⟩ := h.current
  have happly := procs_of_step hstep.1
  obtain ⟨r, hr, ht⟩ := ok_of_map happly
  obtain ⟨⟨u, n⟩, hu, hr⟩ := ok_of_bind (ok_of_current hcur hr)
  cases hr
  obtain ⟨rfl, rfl⟩ := createProcess_ok hcur hu
  have hfork : ((setUpFork (linkChild s.kernel.procs (.slot s.kernel.procs.processCount) (.slot c))
      (.slot s.kernel.procs.processCount) (.slot c) msg.entry).proc
        (.slot s.kernel.procs.processCount)).sp =
      s.kernel.procs.stackTop s.kernel.procs.processCount :=
    (setUpFork_sp msg.entry).trans linkChild_sp
  have hsp := (congrArg (fun r : Procs => (r.proc (.slot s.kernel.procs.processCount)).sp)
    ht).symm.trans hfork
  have hstored := hstep.2
  rw [StackState.record, StackCall.stores, hcur] at hstored
  obtain ⟨hiff, hstacked⟩ := h.grow happly rfl rfl hsp hstored
  refine ⟨hiff.trans ?_, hstacked⟩
  simp [StackCall.Apart, hcur]

/-- `exec_process`. -/
theorem Stacked.execProcess (h : Stacked s) {path : Str}
    (hstep : stackLts.step s (.execProcess path) t) :
    (t.Separate ↔ (StackCall.execProcess path).Apart s) ∧ (t.Separate → Stacked t) := by
  obtain ⟨ps, htable, hslots⟩ := h.table
  obtain ⟨c, hclt, hcur⟩ := h.current
  have htable' := htable.step hstep.1
  obtain ⟨r, hr, ht⟩ := ok_of_map hstep.1
  have hr := ok_of_current hcur hr
  have hstt : ∀ i < s.kernel.procs.processCount, t.stored (.slot i) = s.stored (.slot i) :=
    fun i _ => congrFun hstep.2 _
  dsimp only at hr
  split at hr
  · next hfail =>
    cases hr
    have hprocs := (congrArg Kernel.procs ht).symm
    dsimp only at hprocs
    have hsep : t.Separate := by
      rw [StackState.Separate, hprocs]
      exact (SeparateBelow.congr (fun i _ => rfl) hstt).2 h.separate
    refine ⟨iff_of_true hsep ?_, ?_⟩
    · intro d _ hload
      exact absurd hfail (Int.not_lt.2 hload)
    · refine h.keep ⟨ps, htable', hslots⟩ ?_ ?_ ?_ <;> simp [hprocs]
  · next hload =>
    cases hr
    have hprocs := (congrArg Kernel.procs ht).symm
    dsimp only at hprocs
    have hcount : t.kernel.procs.processCount = s.kernel.procs.processCount := by
      rw [hprocs]
      rfl
    have hsp : ∀ p, (t.kernel.procs.proc p).sp =
        if p = .slot c then s.kernel.procs.stackTop (s.kernel.procs.processCount - 1)
        else (s.kernel.procs.proc p).sp := by
      intro p
      rw [hprocs]
      exact setUpProgram_sp h.count_pos
    have hmax := htable.listed.count_le
    have hkeep : c = s.kernel.procs.processCount - 1 → ∀ p,
        (t.kernel.procs.proc p).sp = (s.kernel.procs.proc p).sp := by
      intro hc p
      rw [hsp]
      split
      · next hp => rw [hp, h.sp_eq c hclt, hc]
      · rfl
    have hlast : t.Separate → c = s.kernel.procs.processCount - 1 := by
      intro hsep
      by_contra hne
      have hpos := h.count_pos
      have hdiff := (hsep c (by omega) (s.kernel.procs.processCount - 1) (by omega) hne).1
      dsimp only at hdiff
      rw [hsp, hsp, if_pos rfl, if_neg (by simpa using Ne.symm hne), h.sp_eq _ (by omega)] at hdiff
      exact hdiff rfl
    refine ⟨⟨?_, ?_⟩, ?_⟩
    · intro hsep d hd _
      rw [hcur] at hd
      rw [← Option.some.inj hd, hlast hsep]
    · intro hapart
      have hc := hapart _ hcur (Int.not_lt.1 hload)
      rw [ProcPtr.slot.injEq] at hc
      rw [StackState.Separate, hcount]
      exact (SeparateBelow.congr (fun i _ => hkeep hc _) hstt).2 h.separate
    · intro hsep
      refine h.keep ⟨ps, htable', hslots⟩ hcount ?_ (hkeep (hlast hsep)) hsep
      rw [hprocs]
      rfl

/-- `handle_exec_message`. -/
theorem Stacked.handleExecMessage (h : Stacked s) {argc : Nat} {msg : Message}
    (hstep : stackLts.step s (.handleExecMessage argc msg) t) :
    (t.Separate ↔ (StackCall.handleExecMessage argc msg).Apart s) ∧ (t.Separate → Stacked t) := by
  obtain ⟨ps, htable, hslots⟩ := h.table
  obtain ⟨c, hclt, hcur⟩ := h.current
  have htable' := htable.step hstep.1
  obtain ⟨r, hr, ht⟩ := ok_of_map hstep.1
  rw [OsArm.handleExecMessage] at hr
  have hstored := hstep.2
  rw [StackState.record, StackCall.stores, hcur] at hstored
  split at hr
  · next hpath =>
    cases hr
    rw [if_pos hpath] at hstored
    have hprocs := (congrArg Kernel.procs ht).symm
    dsimp only at hprocs hstored
    have hsep : t.Separate := by
      rw [StackState.Separate, hprocs]
      exact (SeparateBelow.congr (fun i _ => rfl) fun i _ => congrFun hstored _).2 h.separate
    refine ⟨iff_of_true hsep ?_, ?_⟩
    · intro d _ hsome
      exact absurd (Option.isNone_iff_eq_none.1 hpath) hsome
    · refine h.keep ⟨ps, htable', hslots⟩ ?_ ?_ ?_ <;> simp [hprocs]
  · next hpath =>
    have hr := ok_of_current hcur hr
    cases hr
    rw [if_neg hpath] at hstored
    have hprocs := (congrArg Kernel.procs ht).symm
    dsimp only [Option.map_some] at hprocs hstored
    have hcount : t.kernel.procs.processCount = s.kernel.procs.processCount := by
      rw [hprocs]
      rfl
    have hsp : ∀ p, (t.kernel.procs.proc p).sp = (s.kernel.procs.proc p).sp := by
      intro p
      rw [hprocs]
      exact setUpExec_sp argc msg
    have hbelow : SeparateBelow s.kernel.procs.processCount
        (fun i => (t.kernel.procs.proc (.slot i)).sp) fun i => s.stored (.slot i) :=
      (SeparateBelow.congr (fun i _ => hsp _) fun _ _ => rfl).2 h.separate
    refine ⟨?_, ?_⟩
    · rw [StackState.Separate, hcount, hbelow.store hclt (v := processStackTop)]
      · simp [StackCall.Apart, hcur, Option.isNone_iff_eq_none.not.1 hpath, hsp]
      · rw [hstored, Function.update_self]
      · intro i _ hic
        rw [hstored, Function.update_of_ne (by simpa using hic)]
    · refine h.keep ⟨ps, htable', hslots⟩ hcount ?_ hsp
      rw [hprocs]
      rfl

/-- **One call.** -/
theorem Stacked.step (h : Stacked s) (hstep : stackLts.step s call t) :
    (t.Separate ↔ call.Apart s) ∧ (t.Separate → Stacked t) := by
  cases call with
  | createProcess => exact h.createProcess hstep
  | handleForkMessage msg => exact h.handleForkMessage hstep
  | execProcess path => exact h.execProcess hstep
  | handleExecMessage argc msg => exact h.handleExecMessage hstep
  | schedule =>
    obtain ⟨hsep, hstacked⟩ := h.quiet (procs_of_step hstep.1) rfl rfl hstep.2
    exact ⟨iff_of_true hsep trivial, fun _ => hstacked⟩
  | compute cpu =>
    obtain ⟨hsep, hstacked⟩ := h.quiet (procs_of_step hstep.1) rfl rfl hstep.2
    exact ⟨iff_of_true hsep trivial, fun _ => hstacked⟩

theorem execContext_sp (c : Context) (argc : Nat) (msg : Message) :
    (execContext c argc msg).sp = processStackTop := by
  rw [execContext]
  split <;>
    simp [Context.sp, Context.setX0, Context.setX1, Context.clearX, Context.setSp, Context.setPc,
      Function.update]

/-- What is recorded is what the call leaves in the context. -/
theorem Stacked.ctx_sp (h : Stacked s) (hstep : stackLts.step s call t) {p : ProcPtr} {v : UInt64}
    (hstores : call.stores s.kernel.procs = some (p, v)) : (t.kernel.procs.proc p).ctx.sp = v := by
  obtain ⟨c, hclt, hcur⟩ := h.current
  cases call with
  | createProcess =>
    obtain ⟨⟨u, n⟩, hu, ht⟩ := ok_of_map (procs_of_step hstep.1)
    obtain ⟨rfl, rfl⟩ := createProcess_ok hcur hu
    cases hstores
    rw [← ht, linkChild_ctx]
    rfl
  | handleForkMessage msg =>
    obtain ⟨r, hr, ht⟩ := ok_of_map (procs_of_step hstep.1)
    obtain ⟨⟨u, n⟩, hu, hr⟩ := ok_of_bind (ok_of_current hcur hr)
    cases hr
    obtain ⟨rfl, rfl⟩ := createProcess_ok hcur hu
    rw [StackCall.stores, hcur] at hstores
    cases hstores
    have hne : ProcPtr.slot c ≠ .slot s.kernel.procs.processCount := by
      rw [Ne, ProcPtr.slot.injEq]
      omega
    rw [← ht, setUpFork_ctx, linkChild_proc_of_ne hne]
    rfl
  | handleExecMessage argc msg =>
    obtain ⟨r, hr, ht⟩ := ok_of_map hstep.1
    rw [OsArm.handleExecMessage] at hr
    rw [StackCall.stores] at hstores
    split at hr
    · next hpath =>
      rw [if_pos hpath] at hstores
      cases hstores
    · next hpath =>
      have hr := ok_of_current hcur hr
      cases hr
      rw [if_neg hpath, hcur] at hstores
      cases hstores
      rw [← ht]
      show (((setUpExec s.kernel.procs (.slot c) argc msg).proc (.slot c)).ctx).sp = _
      rw [setUpExec, Procs.modify_proc_self]
      exact execContext_sp _ argc msg
  | execProcess path => cases hstores
  | schedule => cases hstores
  | compute cpu => cases hstores

/-- A fork by a process that was not switched out since its `ctx.sp` was stored never
finds what it has to find. -/
theorem Stacked.not_apart_fork (h : Stacked s) (msg : Message)
    (hkept : ∀ c, s.kernel.procs.currentProcess = some c →
      (s.kernel.procs.proc c).ctx.sp = s.stored c) :
    ¬ (StackCall.handleForkMessage msg).Apart s := by
  obtain ⟨c, hclt, hcur⟩ := h.current
  intro hapart
  exact (hapart _ hcur c hclt).2.1 (hkept _ hcur)

end Step

/-! ## Whole runs -/

/-- The runs whose calls find what they have to find. -/
def apartLts : Lts StackState StackCall where
  step s call t := stackLts.step s call t ∧ call.Apart s

theorem stacked_init (s : Procs) (vfs : Vfs) (hheap : s.heap.pos ≤ heapSize) :
    Stacked (StackState.init s vfs) := by
  have hone : ∀ i < (initProcess s).processCount, i = 0 := fun i hi => Nat.lt_one_iff.1 hi
  refine ⟨⟨_, table_init hheap, fun p hp => ⟨0, List.mem_singleton.1 hp⟩⟩, Nat.one_pos, ?_, ?_⟩
  · intro i hi
    rw [hone i hi]
    simp [StackState.init, initProcess, Procs.modify, Procs.stackTop]
  · intro i hi j hj hij
    exact absurd ((hone i hi).trans (hone j hj).symm) hij

/-- **Separate stacks.**  In a run from `init_process` on whose calls find what they
have to find, no two processes have a stack pointer in common, in any state; and
from there on a call leaves it so if and only if it finds that too. -/
theorem separate_run {s₀ : Procs} {vfs : Vfs} {tr : List StackCall} {s : StackState}
    (hheap : s₀.heap.pos ≤ heapSize) (hrun : apartLts.Run (StackState.init s₀ vfs) tr s) :
    s.Separate ∧ ∀ call t, stackLts.step s call t → (t.Separate ↔ call.Apart s) := by
  have hs : Stacked s := by
    refine hrun.invariant (fun s call t hs hstep => ?_) (stacked_init s₀ vfs hheap)
    exact (hs.step hstep.1).2 ((hs.step hstep.1).1.2 hstep.2)
  exact ⟨hs.separate, fun call t hstep => (hs.step hstep).1⟩

/-- The first fork: the child gets the stack pointer of its parent. -/
theorem fork_shares_stack :
    ∃ t, stackLts.step (StackState.init (Procs.boot 0x40090000) (vfsInit (fun _ => 0) [slash]))
        (.handleForkMessage { Message.zero with entry := 0x40080000 }) t ∧
      t.stored (.slot 1) = 0x40091000 ∧ t.stored (.slot 0) = 0x40091000 ∧ ¬ t.Separate := by
  refine ⟨⟨_, _⟩, ⟨rfl, rfl⟩, rfl, rfl, ?_⟩
  intro hsep
  exact (hsep 0 (by decide) 1 (by decide) (by decide)).2.1 rfl

/-- A child made by `create_process`, which then runs, has a stack of its own. -/
theorem separate_run_child :
    ∃ s, apartLts.Run (StackState.init (Procs.boot 0x40090000) (vfsInit (fun _ => 0) [slash]))
        [.createProcess, .schedule] s ∧
      s.kernel.procs.currentProcess = some (.slot 1) ∧ s.Separate := by
  have hapart : StackCall.createProcess.Apart
      (StackState.init (Procs.boot 0x40090000) (vfsInit (fun _ => 0) [slash])) := by
    intro i hi
    rw [Nat.lt_one_iff.1 hi]
    exact (by decide : (0x40091000 : UInt64) ≠ 0x40092000)
  have hchild : apartLts.Run (StackState.init (Procs.boot 0x40090000)
    (vfsInit (fun _ => 0) [slash]))
      [.createProcess] ⟨_, _⟩ := Lts.Run.snoc .nil ⟨⟨rfl, rfl⟩, hapart⟩
  have hrun : apartLts.Run (StackState.init (Procs.boot 0x40090000) (vfsInit (fun _ => 0) [slash]))
      [.createProcess, .schedule] ⟨_, _⟩ := hchild.snoc ⟨⟨rfl, rfl⟩, trivial⟩
  exact ⟨_, hrun, rfl, (separate_run (Nat.zero_le _) hrun).1⟩

end OsArm
