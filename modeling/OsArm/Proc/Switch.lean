import OsArm.Lib.Arm
import OsArm.Lib.Transition
import OsArm.Proc.Basic

/-!
# The context switch (`context_switch.S`)

The assembly code over a machine whose memory holds the context areas of all
processes, and what it means for a process that is switched out.

* `exec_contextSwitch` — the code stores fourteen words into the old area, loads
  them from the new one and returns.
* `exec_switch` — that is `saveContext` and `loadContext`, which the process
  model uses.
* `Holds.contextSwitch` — a switch of the process model is a run of this code.
* `Saved.step`, `Saved.run` — the words of a suspended process are not disturbed.
* `resumes` — a process resumes with the registers it was switched out with.
-/

namespace OsArm

/-! ## The code -/

/-- The stores of `context_switch`. -/
def saveCode : List Instr :=
  [.stp 19 20 0 0,
   .stp 21 22 0 16,
   .stp 23 24 0 32,
   .stp 25 26 0 48,
   .stp 27 28 0 64,
   .stp 29 30 0 80,
   .movFromSp 2,
   .str 2 0 96,
   .mrsDaif 2,
   .str 2 0 104]

/-- The loads of `context_switch`. -/
def restoreCode : List Instr :=
  [.ldr 2 1 104,
   .msrDaif 2,
   .ldr 2 1 96,
   .movToSp 2,
   .ldp 29 30 1 80,
   .ldp 27 28 1 64,
   .ldp 25 26 1 48,
   .ldp 23 24 1 32,
   .ldp 21 22 1 16,
   .ldp 19 20 1 0]

/-- `context_switch`, called with `old_ctx` in `x0` and `new_ctx` in `x1`. -/
def contextSwitchCode : List Instr := .cbz 0 10 :: (saveCode ++ (restoreCode ++ [.ret]))

/-- `sizeof(context_t)`. -/
def sizeofContext : Nat := 272

/-- The registers that `context_switch` keeps. -/
def Cpu.ofArm (m : Arm) : Cpu where
  x := fun i => m.x (i.natAdd 19)
  sp := m.sp
  daif := m.daif

/-- The word `context_switch` stores at offset `8 * i`. -/
def Cpu.word (c : Cpu) (i : Nat) : UInt64 :=
  if h : i < 12 then c.x ⟨i, h⟩ else if i = 12 then c.sp else c.daif

/-- The `context_t` at an address. -/
def contextAt (m : ByteMem) (a : Nat) : Context where
  words i := m.dword (a + 8 * i)

/-- `saveContext` writes the first fourteen words. -/
theorem saveContext_words (cpu : Cpu) (c : Context) (i : Fin 34) :
    (saveContext cpu c).words i = if (i : Nat) < 14 then cpu.word i else c.words i := by
  have h12 : i < 12 ↔ (i : Nat) < 12 := Iff.rfl
  have heq12 : i = 12 ↔ (i : Nat) = 12 := Fin.ext_iff
  have heq13 : i = 13 ↔ (i : Nat) = 13 := Fin.ext_iff
  simp only [saveContext, Cpu.word, h12, heq12, heq13]
  split_ifs <;> first | rfl | omega

/-- What is saved is loaded. -/
theorem loadContext_saveContext (cpu : Cpu) (c : Context) :
    loadContext (saveContext cpu c) = cpu := by
  rw [loadContext, Cpu.mk.injEq]
  refine ⟨?_, ?_, ?_⟩
  · funext i
    rw [saveContext_words, if_pos (by simp; omega), Cpu.word, dif_pos (by simp)]
    rfl
  · rw [saveContext_words]
    rfl
  · rw [saveContext_words]
    rfl

section Model

variable {s : Procs} {c n p : ProcPtr}

/-- A switch saves the registers in the old context. -/
theorem contextSwitch_ctx_self :
    ((contextSwitch s c n).proc c).ctx = saveContext s.cpu (s.proc c).ctx := by
  show ((s.modify c fun q => { q with ctx := saveContext s.cpu q.ctx }).proc c).ctx = _
  rw [Procs.modify_proc_self]

/-- It leaves the other contexts alone. -/
theorem contextSwitch_ctx_of_ne (h : p ≠ c) :
    ((contextSwitch s c n).proc p).ctx = (s.proc p).ctx := by
  show ((s.modify c fun q => { q with ctx := saveContext s.cpu q.ctx }).proc p).ctx = _
  rw [Procs.modify_proc_of_ne h]

/-- It loads the registers from the new one. -/
theorem contextSwitch_cpu :
    (contextSwitch s c n).cpu = loadContext ((contextSwitch s c n).proc n).ctx := rfl

end Model

/-- An area with fourteen words stored into it. -/
theorem contextAt_setDwords (m : ByteMem) (a : Nat) (cpu : Cpu) :
    contextAt (m.setDwords a cpu.word 14) a = saveContext cpu (contextAt m a) := by
  refine congrArg Context.mk (funext fun i => ?_)
  refine Eq.trans ?_ (saveContext_words cpu (contextAt m a) i).symm
  split
  · next hi => exact ByteMem.dword_setDwords hi
  · next hi => exact ByteMem.dword_setDwords_outside (by omega)

/-- An area that does not change keeps its words. -/
theorem contextAt_congr {m m' : ByteMem} {a : Nat}
    (h : ∀ x, a ≤ x → x < a + sizeofContext → m' x = m x) : contextAt m' a = contextAt m a := by
  rw [sizeofContext] at h
  rw [contextAt, contextAt, Context.mk.injEq]
  funext i
  exact ByteMem.dword_congr fun j hj => h _ (by omega) (by omega)

/-! ## What the code does -/

section Code

variable {m : Arm} {a b : Nat}

theorem straight_saveCode : ∀ i ∈ saveCode, i.Straight := by
  simp [saveCode, Instr.Straight]

theorem straight_restoreCode : ∀ i ∈ restoreCode, i.Straight := by
  simp [restoreCode, Instr.Straight]

/-- The stores fill the first fourteen words of the area; `x2` is the only register
they change. -/
theorem foldl_saveCode (ha : (m.x 0).toNat = a) (hle : a + sizeofContext ≤ 2 ^ 64) :
    saveCode.foldl Arm.step m =
      { m with
        x := Function.update m.x 2 m.daif
        mem := m.mem.setDwords a (Cpu.ofArm m).word 14 } := by
  rw [sizeofContext] at hle
  simp [saveCode, Arm.step, Arm.store, Arm.setX, Arm.address, ha, ByteMem.setDwords, Cpu.word,
    Cpu.ofArm]
  simp (disch := omega) only [Nat.mod_eq_of_lt, Nat.add_assoc, Nat.reduceAdd]

/-- The loads read the first fourteen words of the area. -/
theorem foldl_restoreCode (hb : (m.x 1).toNat = b) (hle : b + sizeofContext ≤ 2 ^ 64) :
    Cpu.ofArm (restoreCode.foldl Arm.step m) = loadContext (contextAt m.mem b) ∧
      (restoreCode.foldl Arm.step m).mem = m.mem := by
  rw [sizeofContext] at hle
  refine ⟨?_, rfl⟩
  simp [restoreCode, Arm.step, Arm.setX, Arm.address, hb, Cpu.ofArm, loadContext, contextAt]
  simp (disch := omega) only [Nat.mod_eq_of_lt, Nat.add_assoc, Nat.reduceAdd]
  refine ⟨?_, trivial, trivial⟩
  funext i
  fin_cases i <;> simp [Function.update]

/-- With an area to store into, the code stores, loads and returns. -/
theorem exec_contextSwitch (h : m.x 0 ≠ 0) :
    Arm.exec contextSwitchCode m =
      { restoreCode.foldl Arm.step (saveCode.foldl Arm.step m) with
        pc := (restoreCode.foldl Arm.step (saveCode.foldl Arm.step m)).x 30 } := by
  rw [contextSwitchCode, Arm.exec_cbz, if_neg h, Arm.exec_append straight_saveCode,
    Arm.exec_append straight_restoreCode, Arm.exec_ret]

/-- **The code is the model.**  A switch from the area `a` to the area `b` leaves in
`a` what `saveContext` says, in the registers what `loadContext` says, and returns
to the loaded `x30`; no byte but those of the fourteen words it stores changes. -/
theorem exec_switch (ha : (m.x 0).toNat = a) (hb : (m.x 1).toNat = b) (hpos : 0 < a)
    (hale : a + sizeofContext ≤ 2 ^ 64) (hble : b + sizeofContext ≤ 2 ^ 64) :
    contextAt (Arm.exec contextSwitchCode m).mem a =
        saveContext (Cpu.ofArm m) (contextAt m.mem a) ∧
      Cpu.ofArm (Arm.exec contextSwitchCode m) =
        loadContext (contextAt (Arm.exec contextSwitchCode m).mem b) ∧
      (Arm.exec contextSwitchCode m).pc = (Arm.exec contextSwitchCode m).x 30 ∧
      ∀ x, x < a ∨ a + 8 * 14 ≤ x → (Arm.exec contextSwitchCode m).mem x = m.mem x := by
  have h0 : m.x 0 ≠ 0 := by
    intro h
    rw [h] at ha
    exact Nat.ne_of_lt hpos ha
  have hx1 : ((saveCode.foldl Arm.step m).x 1).toNat = b := by
    rw [foldl_saveCode ha hale]
    simpa using hb
  obtain ⟨hcpu, hmem⟩ := foldl_restoreCode hx1 hble
  have hsave : (saveCode.foldl Arm.step m).mem = m.mem.setDwords a (Cpu.ofArm m).word 14 := by
    rw [foldl_saveCode ha hale]
  have hexec := exec_contextSwitch h0
  rw [hsave] at hcpu hmem
  generalize restoreCode.foldl Arm.step (saveCode.foldl Arm.step m) = n at hcpu hmem hexec
  rw [hexec]
  refine ⟨?_, ?_, rfl, ?_⟩
  · show contextAt n.mem a = _
    rw [hmem, contextAt_setDwords]
  · show Cpu.ofArm n = loadContext (contextAt n.mem b)
    rw [hcpu, hmem]
  · intro x hx
    show n.mem x = _
    rw [hmem]
    exact ByteMem.setDwords_outside hx

end Code

/-! ## Processes that are switched out and in -/

/-- The context areas of the processes of `P`: they lie in memory, at no `NULL`
address, and no two of them have a byte in common. -/
structure Areas (P : Type*) where
  ctx : P → Nat
  pos : ∀ p, 0 < ctx p
  le : ∀ p, ctx p + sizeofContext ≤ 2 ^ 64
  apart : ∀ p q, p ≠ q → ctx p + sizeofContext ≤ ctx q ∨ ctx q + sizeofContext ≤ ctx p

/-- The machine holds the contexts of the processes `ps` and the registers. -/
structure Holds {ps : List ProcPtr} (areas : Areas {p // p ∈ ps}) (s : Procs) (m : Arm) : Prop where
  contexts : ∀ p, contextAt m.mem (areas.ctx p) = (s.proc p).ctx
  cpu : Cpu.ofArm m = s.cpu

/-- **A switch of the model is a run of the code**, on a machine that holds the
contexts. -/
theorem Holds.contextSwitch {ps : List ProcPtr} {areas : Areas {p // p ∈ ps}} {s : Procs} {m : Arm}
    {old new : {p // p ∈ ps}} (h : Holds areas s m) (hold : (m.x 0).toNat = areas.ctx old)
    (hnew : (m.x 1).toNat = areas.ctx new) :
    Holds areas (contextSwitch s old new) (Arm.exec contextSwitchCode m) := by
  obtain ⟨hsave, hload, -, hframe⟩ :=
    exec_switch hold hnew (areas.pos _) (areas.le _) (areas.le _)
  have hctx : ∀ p : {p // p ∈ ps}, contextAt (Arm.exec contextSwitchCode m).mem (areas.ctx p) =
      ((OsArm.contextSwitch s old new).proc p).ctx := by
    intro p
    by_cases hp : p = old
    · subst hp
      rw [hsave, h.contexts, h.cpu]
      exact contextSwitch_ctx_self.symm
    · have hne : (p : ProcPtr) ≠ old := fun heq => hp (Subtype.ext heq)
      have hkeep : contextAt (Arm.exec contextSwitchCode m).mem (areas.ctx p) =
          contextAt m.mem (areas.ctx p) := by
        refine contextAt_congr fun x hx hx' => hframe x ?_
        have hapart := areas.apart _ _ hp
        rw [sizeofContext] at hapart hx'
        omega
      rw [hkeep, h.contexts]
      exact (contextSwitch_ctx_of_ne hne).symm
  refine ⟨hctx, ?_⟩
  rw [hload, hctx, contextSwitch_cpu]

/-- The machine, the process that runs, and those that were switched out and have
not run since. -/
structure SwitchState (P : Type*) where
  machine : Arm
  running : P
  suspended : P → Prop

/-- What happens: C code runs and leaves a machine behind, or the running process
calls `context_switch` for another one. -/
inductive SwitchLabel (P : Type*)
  | compute (m : Arm)
  | switch (new : P)

/-- The machine after a switch, and who runs and who waits then. -/
def SwitchState.switchTo {P : Type*} (s : SwitchState P) (new : P) : SwitchState P where
  machine := Arm.exec contextSwitchCode s.machine
  running := new
  suspended p := (p = s.running ∨ s.suspended p) ∧ p ≠ new

/-- C code changes registers and memory as it likes but for the areas of processes
that are switched out; a switch is from the area of the running process to the
area of another one, which was switched out before or is new. -/
def switchLts {P : Type*} (areas : Areas P) : Lts (SwitchState P) (SwitchLabel P) where
  step s label t :=
    match label with
    | .compute m =>
      t = { s with machine := m } ∧
        ∀ p, s.suspended p → ∀ x, areas.ctx p ≤ x → x < areas.ctx p + sizeofContext →
          m.mem x = s.machine.mem x
    | .switch new =>
      new ≠ s.running ∧ (s.machine.x 0).toNat = areas.ctx s.running ∧
        (s.machine.x 1).toNat = areas.ctx new ∧ t = s.switchTo new

section Runs

variable {P : Type*} {areas : Areas P} {s t : SwitchState P} {p q : P} {cpu : Cpu}

/-- `p` is switched out and its area holds the registers `cpu`. -/
structure Saved (areas : Areas P) (p : P) (cpu : Cpu) (s : SwitchState P) : Prop where
  suspended : s.suspended p
  running : s.running ≠ p
  words : loadContext (contextAt s.machine.mem (areas.ctx p)) = cpu

/-- **Suspension.**  The process that calls `context_switch` is saved, and no byte
outside its area changes. -/
theorem saved_switch (h : (switchLts areas).step s (.switch q) t) :
    Saved areas s.running (Cpu.ofArm s.machine) t ∧
      ∀ x, x < areas.ctx s.running ∨ areas.ctx s.running + sizeofContext ≤ x →
        t.machine.mem x = s.machine.mem x := by
  obtain ⟨hne, hold, hnew, rfl⟩ := h
  obtain ⟨hsave, hload, -, hframe⟩ :=
    exec_switch hold hnew (areas.pos _) (areas.le _) (areas.le _)
  refine ⟨⟨⟨Or.inl rfl, hne.symm⟩, hne, ?_⟩, ?_⟩
  · show loadContext (contextAt (Arm.exec contextSwitchCode s.machine).mem _) = _
    rw [hsave, loadContext_saveContext]
  · intro x hx
    refine hframe x ?_
    rw [sizeofContext] at hx
    omega

/-- **One step** of the others does not disturb what is saved. -/
theorem Saved.step {a : SwitchLabel P} (hs : Saved areas p cpu s) (h : (switchLts areas).step s a t)
    (ha : a ≠ .switch p) : Saved areas p cpu t := by
  cases a with
  | compute m =>
    obtain ⟨rfl, hmem⟩ := h
    refine ⟨hs.suspended, hs.running, ?_⟩
    rw [← hs.words, contextAt_congr (hmem p hs.suspended)]
  | switch q =>
    have hqp : p ≠ q := by
      rintro rfl
      exact ha rfl
    have hframe := (saved_switch h).2
    obtain ⟨-, -, -, rfl⟩ := h
    refine ⟨⟨Or.inr hs.suspended, hqp⟩, hqp.symm, ?_⟩
    rw [← hs.words, contextAt_congr fun x hx hx' => hframe x ?_]
    have hapart := areas.apart _ _ hs.running
    omega

/-- Nor does a run of them. -/
theorem Saved.run {tr : List (SwitchLabel P)} (hs : Saved areas p cpu s)
    (h : (switchLts areas).Run s tr t) (htr : ∀ a ∈ tr, a ≠ .switch p) : Saved areas p cpu t := by
  induction h with
  | nil => exact hs
  | snoc _ hstep ih =>
    have hold := ih fun a ha => htr a (List.mem_append_left _ ha)
    exact hold.step hstep (htr _ (by simp))

/-- **A suspended process resumes with its own registers.**  For any number of
processes and wherever in a run: a switch changes no byte outside the area of the
process it suspends; and when, after the other processes have run, computed and
switched in any order, that process is switched to again, `x19` to `x30`, `sp` and
`daif` are what they were when it was switched out, and it goes on behind its own
call. -/
theorem resumes (hout : (switchLts areas).step s (.switch q) t) :
    (∀ x, x < areas.ctx s.running ∨ areas.ctx s.running + sizeofContext ≤ x →
      t.machine.mem x = s.machine.mem x) ∧
    ∀ (tr : List (SwitchLabel P)) u v, (switchLts areas).Run t tr u →
      (∀ a ∈ tr, a ≠ .switch s.running) → (switchLts areas).step u (.switch s.running) v →
      Cpu.ofArm v.machine = Cpu.ofArm s.machine ∧ v.machine.pc = s.machine.x 30 := by
  obtain ⟨hsaved, hframe⟩ := saved_switch hout
  refine ⟨hframe, ?_⟩
  intro tr u v hbetween hothers hin
  have hwords := (hsaved.run hbetween hothers).words
  have hother := (hsaved.run hbetween hothers).running
  have hquiet := (saved_switch hin).2
  obtain ⟨-, hold, hnew, rfl⟩ := hin
  obtain ⟨-, hload, hpc, -⟩ := exec_switch hold hnew (areas.pos _) (areas.le _) (areas.le _)
  have hkeep : contextAt (Arm.exec contextSwitchCode u.machine).mem (areas.ctx s.running) =
      contextAt u.machine.mem (areas.ctx s.running) := by
    refine contextAt_congr fun x hx hx' => hquiet x ?_
    have hapart := areas.apart _ _ hother
    omega
  rw [hkeep, hwords] at hload
  refine ⟨hload, ?_⟩
  show (Arm.exec contextSwitchCode u.machine).pc = _
  rw [hpc]
  exact congrFun (congrArg Cpu.x hload) 11

/-- The areas of a row of two. -/
def rowOfTwo : Areas (Fin 2) where
  ctx p := 4096 + sizeofContext * p
  pos p := by omega
  le p := by simp only [sizeofContext]; omega
  apart p q h := by simp only [sizeofContext]; omega

/-- The registers at a call of `context_switch`. -/
def atCall (old new rest : UInt64) : Fin 31 → UInt64 :=
  fun i => if i = 0 then old else if i = 1 then new else rest

/-- One process switches to another, which changes every register and switches
back. -/
theorem resumes_two :
    ∃ s t u v : SwitchState (Fin 2), (switchLts rowOfTwo).step s (.switch 1) t ∧
      (switchLts rowOfTwo).step u (.switch 0) v ∧ s.machine.x 19 = 7 ∧ u.machine.x 19 = 9 ∧
      Cpu.ofArm v.machine = Cpu.ofArm s.machine := by
  obtain ⟨s, hs⟩ : ∃ s : SwitchState (Fin 2), s =
      { machine := { x := atCall 4096 4368 7, sp := 65536, daif := 0, pc := 0, mem := fun _ => 0 }
        running := 0
        suspended := fun _ => False } := ⟨_, rfl⟩
  obtain ⟨m, hm⟩ : ∃ m : Arm, m =
      { (s.switchTo 1).machine with x := atCall 4368 4096 9 } := ⟨_, rfl⟩
  have hout : (switchLts rowOfTwo).step s (.switch 1) (s.switchTo 1) := by
    rw [hs]
    exact ⟨by decide, rfl, rfl, rfl⟩
  have hbetween : (switchLts rowOfTwo).Run (s.switchTo 1) [.compute m]
      { s.switchTo 1 with machine := m } := by
    refine Lts.Run.snoc .nil ⟨rfl, ?_⟩
    intro p _ x _ _
    rw [hm]
  have hrun0 : s.running = 0 := by rw [hs]
  have hin : (switchLts rowOfTwo).step { s.switchTo 1 with machine := m } (.switch s.running)
      (SwitchState.switchTo { s.switchTo 1 with machine := m } s.running) := by
    rw [hrun0, hm]
    exact ⟨(by decide : (0 : Fin 2) ≠ 1), rfl, rfl, rfl⟩
  refine ⟨s, _, _, _, hout, hrun0 ▸ hin, ?_, ?_, ?_⟩
  · rw [hs]
    rfl
  · show m.x 19 = 9
    rw [hm]
    rfl
  · exact ((resumes hout).2 _ _ _ hbetween (by simp) hin).1

end Runs

end OsArm
