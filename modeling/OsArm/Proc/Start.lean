import OsArm.Proc.Exec

/-!
# The first switch to a process

The C code writes `context_t` as `pc`, `sp`, `lr` and `x`; `context_switch` reads the
same bytes as `x19` to `x30`, `sp` and `daif`.  What it takes for the stack pointer
is `x[9]`, what it takes for the return address is `x[8]`.

* `starts_loadContext` — when the two readings of a context agree.
* `first_switch_iff` — for every way to build a process, and whatever the others do
  until it runs: when it starts where its context says.
-/

namespace OsArm

/-! ## Building a process -/

/-- The ways to build the context of a new process. -/
inductive Build
  | processCreate (entry : UInt64)
  | createProcess
  | handleForkMessage (msg : Message)

namespace Build

/-- The call that builds. -/
def call : Build → ProcCall
  | processCreate entry => .processCreate entry
  | createProcess => .createProcess
  | handleForkMessage msg => .handleForkMessage msg

/-- The context written reads the same both ways. -/
def Agrees (s : Procs) : Build → Prop
  | processCreate entry => entry = 0
  | createProcess => ∀ c, s.currentProcess = some c →
      (s.proc c).ctx.x 9 = s.stackTop s.processCount ∧ (s.proc c).ctx.x 8 = (s.proc c).ctx.pc
  | handleForkMessage msg => ∀ c, s.currentProcess = some c →
      (s.proc c).ctx.x 9 = (s.proc c).ctx.sp ∧ (s.proc c).ctx.x 8 = msg.entry

end Build

/-- The registers a process starts with are those of its context: `sp` is the stack
pointer and `x30`, to which `context_switch` returns, is `ctx.pc`. -/
def Starts (c : Context) (cpu : Cpu) : Prop := cpu.sp = c.sp ∧ cpu.x 11 = c.pc

/-- The context reads the same both ways. -/
def Context.Agrees (c : Context) : Prop := c.x 9 = c.sp ∧ c.x 8 = c.pc

/-- What a switch loads is where the context says when the two readings agree. -/
theorem starts_loadContext {c : Context} : Starts c (loadContext c) ↔ c.Agrees := Iff.rfl

/-- The steps before `n` runs: other processes are current before and after. -/
def unstartedLts (n : ProcPtr) : Lts Kernel KernelCall where
  step k call l :=
    call.apply k = .ok l ∧ k.procs.currentProcess ≠ some n ∧ l.procs.currentProcess ≠ some n

/-! ## Until it runs -/

/-- The record lies in the part of the array or of the heap that is taken. -/
def Allocated (s : Procs) : ProcPtr → Prop
  | .slot i => i < s.processCount
  | .heap a => a < s.heap.pos

/-- From `s` to `t` nothing is given back. -/
structure Grows (s t : Procs) : Prop where
  processCount : s.processCount ≤ t.processCount
  heap : s.heap.pos ≤ t.heap.pos
  heap_le : t.heap.pos ≤ heapSize

section Growth

variable {s t u : Procs} {c n p : ProcPtr} {new : Option ProcPtr}

theorem Grows.trans (h : Grows s t) (h' : Grows t u) : Grows s u :=
  ⟨h.processCount.trans h'.processCount, h.heap.trans h'.heap, h'.heap_le⟩

theorem Allocated.grows (h : Allocated s p) (hst : Grows s t) : Allocated t p := by
  cases p with
  | slot i => exact Nat.lt_of_lt_of_le h hst.processCount
  | heap a => exact Nat.lt_of_lt_of_le h hst.heap

/-- What a call creates was not taken. -/
theorem Allocated.creates_ne {call : ProcCall} (h : Allocated s p) (hheap : s.heap.pos ≤ heapSize) :
    call.creates s ≠ some p := by
  have hslot : some (ProcPtr.slot s.processCount) ≠ some p := by
    intro heq
    rw [← Option.some.inj heq] at h
    exact Nat.lt_irrefl _ h
  cases call with
  | createProcess => exact hslot
  | sendFork msg => exact hslot
  | handleForkMessage msg => exact hslot
  | processCreate entry =>
    intro heq
    rw [ProcCall.creates] at heq
    obtain ⟨⟨a, heap⟩, halloc, hp⟩ := Option.map_eq_some_iff.1 heq
    obtain ⟨rfl, -⟩ := kalloc_some hheap (by simp [sizeofProcess]) halloc
    rw [← hp] at h
    exact Nat.lt_irrefl _ h
  | _ => simp [ProcCall.creates]

theorem processCreate_grows (entry : UInt64) (hheap : s.heap.pos ≤ heapSize) :
    Grows s (processCreate s entry).1 := by
  unfold processCreate
  cases halloc : kalloc s.heap sizeofProcess with
  | none => exact ⟨Nat.le_refl _, Nat.le_refl _, hheap⟩
  | some r =>
    obtain ⟨-, hpos, hle⟩ := kalloc_some hheap (by simp [sizeofProcess]) halloc
    refine ⟨Nat.le_refl _, ?_, ?_⟩
    · show s.heap.pos ≤ r.2.pos
      omega
    · show r.2.pos ≤ heapSize
      omega

theorem Update.grows (hheap : s.heap.pos ≤ heapSize) (h : Update c new s t) : Grows s t := by
  cases h with
  | child q hq => exact ⟨Nat.le_succ _, Nat.le_refl _, hheap⟩
  | record entry hq => exact processCreate_grows entry hheap
  | _ => exact ⟨Nat.le_refl _, Nat.le_refl _, hheap⟩

theorem processCreate_current_isSome {entry : UInt64} (hcur : s.currentProcess.isSome) :
    (processCreate s entry).1.currentProcess.isSome := by
  unfold processCreate
  cases kalloc s.heap sizeofProcess with
  | none => exact hcur
  | some r => simp

theorem Update.current_isSome (hcur : s.currentProcess.isSome) (h : Update c new s t) :
    t.currentProcess.isSome := by
  cases h with
  | current q => rfl
  | record entry hq => exact processCreate_current_isSome hcur
  | _ => exact hcur

theorem grows_of_apply {call : ProcCall} (hheap : s.heap.pos ≤ heapSize)
    (hc : s.currentProcess = some c) (h : call.apply s = .ok t) :
    Grows s t ∧ t.currentProcess.isSome := by
  have hupdates := apply_updates hc h
  clear h
  induction hupdates with
  | refl => exact ⟨⟨Nat.le_refl _, Nat.le_refl _, hheap⟩, by simp [hc]⟩
  | tail _ hlast ih =>
    obtain ⟨hgrows, hcur⟩ := ih
    exact ⟨hgrows.trans (hlast.grows hgrows.heap_le), hlast.current_isSome hcur⟩

end Growth

/-! ## The whole kernel -/

section Kernel

variable {k l : Kernel} {c n : ProcPtr}

/-- **One step** of the others leaves the context of `n` alone. -/
theorem ctx_of_step {call : KernelCall} (hheap : k.procs.heap.pos ≤ heapSize)
    (hn : Allocated k.procs n) (hc : k.procs.currentProcess = some c) (h : call.apply k = .ok l) :
    Grows k.procs l.procs ∧ l.procs.currentProcess.isSome ∧
      (c ≠ n → (l.procs.proc n).ctx = (k.procs.proc n).ctx) := by
  cases call with
  | proc call =>
    obtain ⟨t, ht, rfl⟩ := ok_of_map h
    obtain ⟨hgrows, hcur⟩ := grows_of_apply hheap hc ht
    exact ⟨hgrows, hcur, fun hne => ctx_of_apply hc hne (hn.creates_ne hheap) ht⟩
  | handleExecMessage argc msg =>
    obtain ⟨r, hr, rfl⟩ := ok_of_map h
    rw [handleExecMessage] at hr
    split at hr
    · cases hr
      exact ⟨⟨Nat.le_refl _, Nat.le_refl _, hheap⟩, by simp [hc], fun _ => rfl⟩
    · have hr := ok_of_current hc hr
      cases hr
      refine ⟨⟨Nat.le_refl _, Nat.le_refl _, hheap⟩, by
        simp [setUpExec, Procs.modify, hc], fun hne => ?_⟩
      exact congrArg Process.ctx (Function.update_of_ne hne.symm ..)
  | execProcess path =>
    obtain ⟨r, hr, rfl⟩ := ok_of_map h
    have hr := ok_of_current hc hr
    obtain ⟨hpos, hle⟩ := loadProgram_heap (v := { k.vfs with heap := k.procs.heap }) hheap path
    dsimp only at hr hpos
    split at hr
    · cases hr
      exact ⟨⟨Nat.le_refl _, hpos, hle⟩, by simp [hc], fun _ => rfl⟩
    · cases hr
      refine ⟨⟨Nat.le_refl _, hpos, hle⟩, by simp [setUpProgram, Procs.modify, hc], fun hne => ?_⟩
      exact congrArg Process.ctx (Function.update_of_ne hne.symm ..)

/-- `n` has not run: its context is still `ctx`. -/
structure Unstarted (n : ProcPtr) (ctx : Context) (k : Kernel) : Prop where
  allocated : Allocated k.procs n
  heap_le : k.procs.heap.pos ≤ heapSize
  current : ∃ c, k.procs.currentProcess = some c ∧ c ≠ n
  context : (k.procs.proc n).ctx = ctx

theorem Unstarted.step {ctx : Context} {call : KernelCall} (hk : Unstarted n ctx k)
    (h : (unstartedLts n).step k call l) : Unstarted n ctx l := by
  obtain ⟨happly, -, hne⟩ := h
  obtain ⟨c, hc, hcn⟩ := hk.current
  obtain ⟨hgrows, hcur, hctx⟩ := ctx_of_step hk.heap_le hk.allocated hc happly
  obtain ⟨d, hd⟩ := Option.isSome_iff_exists.1 hcur
  refine ⟨hk.allocated.grows hgrows, hgrows.heap_le, ⟨d, hd, ?_⟩, ?_⟩
  · rintro rfl
    exact hne hd
  · rw [hctx hcn, hk.context]

end Kernel

/-! ## The first switch -/

section Build

variable {s t : Procs} {c n : ProcPtr} {ps : List ProcPtr}

/-- A process of the table has its record in the taken part. -/
theorem Table.allocated (h : Table ps s) {p : ProcPtr} (hp : p ∈ ps) : Allocated s p := by
  cases p with
  | slot i => exact h.listed.slot_lt i hp
  | heap a => exact h.listed.heap_lt a hp

theorem Context.agrees_setPc (ctx : Context) (v : UInt64) :
    (ctx.setPc v).Agrees ↔ ctx.x 9 = ctx.sp ∧ ctx.x 8 = v := by
  simp [Context.Agrees, Context.setPc, Context.x, Context.sp, Context.pc, Function.update]

theorem Context.agrees_setSp (ctx : Context) (v : UInt64) :
    (ctx.setSp v).Agrees ↔ ctx.x 9 = v ∧ ctx.x 8 = ctx.pc := by
  simp [Context.Agrees, Context.setSp, Context.x, Context.sp, Context.pc, Function.update]

/-- The context `create_process` writes. -/
theorem linkChild_ctx : ((linkChild s n c).proc n).ctx =
    (s.proc c).ctx.setSp (s.stackTop s.processCount) := by
  simp [linkChild, setUpChild, Procs.modify]

/-- The context `handle_fork_message` writes. -/
theorem setUpFork_ctx (entry : UInt64) : ((setUpFork s n c entry).proc n).ctx =
    ((s.proc c).ctx.setX0 0).setPc entry := by
  simp [setUpFork, Procs.modify]

/-- The context `process_create` writes. -/
theorem processCreate_ctx {entry : UInt64}
    (h : (kalloc s.heap sizeofProcess).map (fun r => ProcPtr.heap r.1) = some n) :
    ((processCreate s entry).1.proc n).ctx = Process.zero.ctx.setPc entry := by
  unfold processCreate
  cases halloc : kalloc s.heap sizeofProcess with
  | none => simp [halloc] at h
  | some r =>
    rw [halloc] at h
    cases h
    simp [Procs.modify]

/-- What is created is not what was there. -/
theorem Table.creates_ne {call : ProcCall} (h : Table ps s)
    (hnew : call.creates s = some n) {p : ProcPtr} (hp : p ∈ ps) : p ≠ n := by
  rintro rfl
  exact (h.allocated hp).creates_ne h.listed.heap_le hnew

/-- **One build**: the context written reads the same both ways under the condition
of the build. -/
theorem built {b : Build} (h : Table ps s) (hb : b.call.apply s = .ok t)
    (hnew : b.call.creates s = some n) :
    t.currentProcess = s.currentProcess ∧ ((t.proc n).ctx.Agrees ↔ b.Agrees s) := by
  obtain ⟨c, hc, -⟩ := h.handover
  have hcn : c ≠ n := h.creates_ne hnew hc.mem
  have hcur : ∀ {P : ProcPtr → Prop}, (∀ d, s.currentProcess = some d → P d) ↔ P c := by
    intro P
    rw [hc.current]
    simp
  cases b with
  | processCreate entry =>
    rw [Build.call, ProcCall.apply] at hb
    rw [Build.call, ProcCall.creates] at hnew
    rw [← Except.ok.inj hb]
    refine ⟨?_, ?_⟩
    · unfold processCreate
      cases kalloc s.heap sizeofProcess with
      | none => rfl
      | some r => simp [hc.current]
    · rw [processCreate_ctx hnew, Context.agrees_setPc, Build.Agrees]
      simp [Process.zero, Context.x, Context.sp, eq_comm]
  | createProcess =>
    obtain ⟨⟨u, m⟩, hu, rfl⟩ := ok_of_map hb
    obtain ⟨rfl, rfl⟩ := createProcess_ok hc.current hu
    cases hnew
    refine ⟨rfl, ?_⟩
    rw [Build.Agrees, hcur, linkChild_ctx, Context.agrees_setSp]
  | handleForkMessage msg =>
    obtain ⟨r, hr, rfl⟩ := ok_of_map hb
    obtain ⟨⟨u, m⟩, hu, hr⟩ := ok_of_bind (ok_of_current hc.current hr)
    cases hr
    obtain ⟨rfl, rfl⟩ := createProcess_ok hc.current hu
    cases hnew
    refine ⟨rfl, ?_⟩
    rw [Build.Agrees, hcur, setUpFork_ctx, linkChild_proc_of_ne hcn, Context.agrees_setPc]
    simp [Context.setX0, Context.x, Context.sp, Function.update]

/-- A switch to another process loads its context. -/
theorem switchTo_cpu (h : c ≠ n) : (switchTo s c n).cpu = loadContext (s.proc n).ctx := by
  have hstate : ∀ (r : Process) st, Process.ctx { r with state := st } = r.ctx := fun _ _ => rfl
  rw [switchTo, contextSwitch_cpu, contextSwitch_ctx_of_ne h.symm]
  have hpre : ((preempt (s.setState n .running) c).proc n).ctx = (s.proc n).ctx := by
    rw [preempt]
    split
    · exact (Procs.modify_field (·.ctx) fun r => hstate r _).trans
        (Procs.modify_field (·.ctx) fun r => hstate r _)
    · exact Procs.modify_field (·.ctx) fun r => hstate r _
  exact congrArg loadContext hpre

/-- `handle_exec_message` writes a context that never reads the same both ways. -/
theorem not_agrees_execContext (ctx : Context) (argc : Nat) (msg : Message) :
    ¬ (execContext ctx argc msg).Agrees := by
  intro h
  have hsp : (execContext ctx argc msg).x 9 = (execContext ctx argc msg).sp := h.1
  rw [execContext] at hsp
  split at hsp <;>
    simp [Context.x, Context.sp, Context.setX0, Context.setX1, Context.clearX, Context.setSp,
      Context.setPc, processStackTop, Function.update] at hsp

end Build

/-- **The first switch.**  In a run from `init_process` on a process is built in one
of the three ways, and until it runs other processes run, create, exit, wait and
set programs up as they like.  When `schedule` then switches to it for the first
time, it starts where its context says if and only if the words that the C code
left in `x[9]` and `x[8]` equal `sp` and `pc`, which is a condition on the build.
A context that `handle_exec_message` has written, whatever was there before, never
starts where it says. -/
theorem first_switch_iff {s₀ s : Procs} {vfs : Vfs} {tr₀ tr : List KernelCall} {k k₁ l : Kernel}
    {b : Build} {n : ProcPtr} (hheap : s₀.heap.pos ≤ heapSize)
    (hrun₀ : kernelLts.Run { procs := initProcess s₀, vfs := vfs } tr₀ k)
    (hbuild : (KernelCall.proc b.call).apply k = .ok k₁) (hnew : b.call.creates k.procs = some n)
    (hrun : (unstartedLts n).Run k₁ tr l) (hswitch : schedule l.procs = .ok s)
    (hn : s.currentProcess = some n) :
    (Starts (l.procs.proc n).ctx s.cpu ↔ b.Agrees k.procs) ∧
      ∀ u v c ctx argc msg, u.currentProcess = some c → c ≠ n → schedule u = .ok v →
        v.currentProcess = some n → (u.proc n).ctx = execContext ctx argc msg →
        ¬ Starts (u.proc n).ctx v.cpu := by
  refine ⟨?_, ?_⟩
  · obtain ⟨ps, hk⟩ := (table_init hheap).kernelRun
      (k := { procs := initProcess s₀, vfs := vfs }) hrun₀
    have hk₁ := hk.step hbuild
    obtain ⟨t, ht, rfl⟩ := ok_of_map hbuild
    obtain ⟨hcur, hagrees⟩ := built hk ht hnew
    obtain ⟨c, hc, -⟩ := hk.handover
    have hmem : n ∈ (KernelCall.creates k (.proc b.call)).toList ++ ps := by
      rw [KernelCall.creates, hnew]
      simp
    have hstart : Unstarted n (t.proc n).ctx { k with procs := t } :=
      ⟨hk₁.allocated hmem, hk₁.listed.heap_le,
        ⟨c, hcur.trans hc.current, hk.creates_ne hnew hc.mem⟩, rfl⟩
    have hend : Unstarted n (t.proc n).ctx l :=
      hrun.invariant (fun k call l hk hstep => hk.step hstep) hstart
    obtain ⟨d, hd, hdn⟩ := hend.current
    obtain ⟨d', m, hd', rfl⟩ := schedule_ok hswitch
    rw [hd, Option.some.injEq] at hd'
    subst hd'
    rw [switchTo_currentProcess, Option.some.injEq] at hn
    subst hn
    rw [switchTo_cpu hdn, hend.context, starts_loadContext, hagrees]
  · intro u v c ctx argc msg hc hcn hv hvn hctx
    obtain ⟨d, m, hd, rfl⟩ := schedule_ok hv
    rw [hc, Option.some.injEq] at hd
    subst hd
    rw [switchTo_currentProcess, Option.some.injEq] at hvn
    subst hvn
    rw [switchTo_cpu hcn, hctx, starts_loadContext]
    exact not_agrees_execContext ctx argc msg

/-- The first process forks a child that is to start at an address; the first switch
to the child finds zero as its stack pointer and as the place to go on. -/
theorem fork_starts_at_zero :
    ∃ t s, (ProcCall.handleForkMessage { Message.zero with entry := 0x40080000 }).apply
        (initProcess (Procs.boot 0x40090000)) = .ok t ∧
      schedule t = .ok s ∧ s.currentProcess = some (.slot 1) ∧
      (t.proc (.slot 1)).ctx.sp = 0x40091000 ∧ (t.proc (.slot 1)).ctx.pc = 0x40080000 ∧
      s.cpu.sp = 0 ∧ s.cpu.x 11 = 0 ∧ ¬ Starts (t.proc (.slot 1)).ctx s.cpu := by
  refine ⟨_, _, rfl, rfl, rfl, rfl, rfl, rfl, rfl, ?_⟩
  rintro ⟨hsp, -⟩
  exact absurd hsp (by decide)

/-- The same child, by the condition on its fork. -/
theorem first_switch_iff_fork :
    ∃ t s, schedule t = .ok s ∧ s.currentProcess = some (.slot 1) ∧
      (Starts (t.proc (.slot 1)).ctx s.cpu ↔
        (Build.handleForkMessage { Message.zero with entry := 0x40080000 }).Agrees
          (initProcess (Procs.boot 0x40090000))) := by
  have hbuild : (KernelCall.proc (Build.handleForkMessage
      { Message.zero with entry := 0x40080000 }).call).apply
        { procs := initProcess (Procs.boot 0x40090000), vfs := vfsInit (fun _ => 0) [slash] } =
      .ok _ := rfl
  exact ⟨_, _, rfl, rfl,
    (first_switch_iff (Nat.zero_le _) .nil hbuild rfl .nil rfl rfl).1⟩

end OsArm
