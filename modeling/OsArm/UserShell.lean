import OsArm.Exceptions

/-!
# The user program (`user_shell.S`)

What runs at exception level 0: a loop that asks for a character and puts it out again, each by a
system call.

* `userShell`, `UserMode.step` — the program, and one instruction of it; an `svc` goes through
  `sync_el0_64` and comes back with `eret`.
* `step_svc` — a system call as the program sees it; `userShell_turn` — one turn of the loop.
* `userShell_run` — whatever is typed, each turn takes one character, and puts out the saved status.
* `UserMode.takeIrq` — an interrupt: its entry of the vector table lies in the middle of
  `sync_el0_64`.  `takeIrq_iff` — what is then loaded from above the kernel's stack pointer, and
  when the program goes on as if nothing had happened.
-/

namespace OsArm

/-! ## The program -/

/-- The instructions; a branch is given by the number of its target. -/
inductive UserInstr
  | movImm (t : Fin 31) (v : UInt64)
  | mov (t n : Fin 31)
  | svc
  | b (target : Nat)

/-- `_user_start`, and from 3 on `loop`. -/
def userShell : List UserInstr :=
  [.movImm 0 36,
   .movImm 8 1,
   .svc,
   .movImm 8 2,
   .svc,
   .mov 1 0,
   .mov 0 1,
   .movImm 8 1,
   .svc,
   .b 3]

/-- The address of an instruction of the program. -/
def userAddress (i : Nat) : UInt64 := UInt64.ofNat (0x80000000 + 4 * i)

/-- The instruction at an address. -/
def fetch (pc : UInt64) : Option UserInstr :=
  if pc.toNat < 0x80000000 then none else userShell[(pc.toNat - 0x80000000) / 4]?

/-- The kernel under the program; `call` is `handle_sync_exception`, with the character that comes
in from the UART. -/
structure UserKernel where
  top : StackTop
  ret : UInt64
  esr : UInt64
  call : UInt8 → El1 → El1

/-- **What is promised of the kernel**: the syndrome is that of an `svc`, and the handler keeps to
the procedure call standard and does not write to the word at `stack_top`. -/
structure UserKernel.Calls (k : UserKernel) : Prop where
  svc : (k.esr >>> 26) &&& 0x3F = 0x15
  aapcs : ∀ c, Aapcs (32 * 8) (k.call c)
  top : ∀ c s, (k.call c s).mem.dword k.top.addr.toNat = s.mem.dword k.top.addr.toNat

/-- The processor at exception level 0; `reads` counts the characters that were taken, and `out` is
what was put out. -/
structure UserMode where
  cpu : El1
  pstate : UInt64
  reads : Nat
  out : List UInt8

/-- `enter_usermode(pc, sp)`; the stack of the program is not modelled. -/
def enterUsermode (cpu : El1) (pc : UInt64) : UserMode where
  cpu := { cpu with elr := pc, spsr := 0, pc := pc }
  pstate := 0
  reads := 0
  out := []

namespace UserMode

/-- What the processor does on an exception. -/
def exceptionEntry (u : UserMode) (elr : UInt64) : El1 :=
  { u.cpu with elr := elr, spsr := u.pstate, daif := 0x3C0 }

/-- An `svc`; `none` if the handler does not come back. -/
def svc (k : UserKernel) (c : UInt8) (u : UserMode) : Option UserMode :=
  let s := u.exceptionEntry (u.cpu.pc + 4)
  let args := beforeHandler k.top (k.call c) s
  match handleSyncException k.esr (args.x 0) (args.x 1) c with
  | (none, _) => none
  | (some _, printed) =>
    let cpu := El1.exec (k.call c) (syncEl0Code k.top k.ret) s
    some
      { cpu := cpu
        pstate := cpu.spsr
        reads := if args.x 1 = 2 then u.reads + 1 else u.reads
        out := u.out ++ printed }

/-- Go on to the next instruction. -/
def next (u : UserMode) (cpu : El1) : UserMode := { u with cpu := { cpu with pc := u.cpu.pc + 4 } }

/-- One instruction, with the characters that are typed. -/
def step (k : UserKernel) (input : Nat → UInt8) (u : UserMode) : Option UserMode :=
  match fetch u.cpu.pc with
  | none => none
  | some (.movImm t v) => some (u.next (u.cpu.setX t v))
  | some (.mov t n) => some (u.next (u.cpu.setX t (u.cpu.x n)))
  | some .svc => u.svc k (input u.reads)
  | some (.b target) => some { u with cpu := { u.cpu with pc := userAddress target } }

/-- So many instructions. -/
def steps (k : UserKernel) (input : Nat → UInt8) : Nat → UserMode → Option UserMode
  | 0, u => some u
  | n + 1, u => (u.step k input).bind (steps k input n)

end UserMode

/-! ## A system call -/

/-- What every call prints. -/
def svcMessage : List UInt8 := str ['[', 'S', 'V', 'C', ']', '\r', '\n']

section Calls

variable {k : UserKernel} {input : Nat → UInt8} {u : UserMode} {c : UInt8}

/-- `eret` goes to the link address. -/
theorem exec_sync_pc {top : StackTop} {ret : UInt64} {call : El1 → El1} {s : El1} :
    (El1.exec call (syncEl0Code top ret) s).pc = (El1.exec call (syncEl0Code top ret) s).elr := by
  have hcode : syncEl0Code top ret =
      (enterCode top ++ (saveUserCode ++ (callCode ret ++ restoreUserCode.dropLast)))
        ++ [.eret] := rfl
  rw [hcode, El1.exec_append]
  rfl

/-- What the path leaves in the registers that the program uses. -/
theorem afterSync {top : StackTop} {ret : UInt64} {call : El1 → El1} {s : El1}
    (h : Aapcs (32 * 8) call)
    (hkeep : (handled top ret call s).mem.dword top.addr.toNat =
      (beforeHandler top call s).mem.dword top.addr.toNat) :
    (El1.exec call (syncEl0Code top ret) s).pc = s.elr ∧
    (El1.exec call (syncEl0Code top ret) s).x 0 = s.spsr ∧
    (El1.exec call (syncEl0Code top ret) s).x 8 = s.x 8 ∧
    (El1.exec call (syncEl0Code top ret) s).spsr = s.spsr ∧
    (El1.exec call (syncEl0Code top ret) s).sp = s.sp := by
  obtain ⟨hx, -, -, helr, hsp, hstatus, -⟩ := sync_el0_64_spec h
  have hspsr := spsr_of_kept h hkeep
  exact ⟨exec_sync_pc.trans helr, hstatus.trans hspsr,
    hx 8 (by decide) (by decide) (by decide), hspsr, hsp⟩

/-- **What the program sees of a call** that comes back: `x0` holds the saved status, and the other
registers that it uses are as they were. -/
structure AfterCall (u v : UserMode) : Prop where
  pc : v.cpu.pc = u.cpu.pc + 4
  x0 : v.cpu.x 0 = u.pstate
  x8 : v.cpu.x 8 = u.cpu.x 8
  pstate : v.pstate = u.pstate
  sp : v.cpu.sp = u.cpu.sp

theorem svc_spec (hk : k.Calls) {r : UInt64} {printed : List UInt8}
    (hcall : handleSyncException k.esr (u.cpu.x 0) (u.cpu.x 8) c = (some r, printed)) :
    ∃ v, u.svc k c = some v ∧ AfterCall u v ∧ v.out = u.out ++ printed ∧
      v.reads = if u.cpu.x 8 = 2 then u.reads + 1 else u.reads := by
  have hentry : (u.exceptionEntry (u.cpu.pc + 4)).spsr = u.pstate ∧
      (u.exceptionEntry (u.cpu.pc + 4)).elr = u.cpu.pc + 4 ∧
      (u.exceptionEntry (u.cpu.pc + 4)).x = u.cpu.x ∧
      (u.exceptionEntry (u.cpu.pc + 4)).sp = u.cpu.sp := ⟨rfl, rfl, rfl, rfl⟩
  unfold UserMode.svc
  dsimp only
  generalize u.exceptionEntry (u.cpu.pc + 4) = s at hentry ⊢
  obtain ⟨hspsr, helr, hregs, hsp⟩ := hentry
  obtain ⟨hx0, hx1, -, -⟩ := beforeHandler_spec k.top (k.call c) s
  have hkeep : (handled k.top k.ret (k.call c) s).mem.dword k.top.addr.toNat =
      (beforeHandler k.top (k.call c) s).mem.dword k.top.addr.toNat :=
    hk.top c ((beforeHandler k.top (k.call c) s).setX 30 k.ret)
  have hback := afterSync (hk.aapcs c) hkeep
  generalize El1.exec (k.call c) (syncEl0Code k.top k.ret) s = t at hback ⊢
  obtain ⟨hpc, hx0', hx8, hspsr', hsp'⟩ := hback
  have hargs : handleSyncException k.esr ((beforeHandler k.top (k.call c) s).x 0)
      ((beforeHandler k.top (k.call c) s).x 1) c = (some r, printed) := by
    rw [hx0, hx1, hregs]
    exact hcall
  rw [hargs, hx1, hregs]
  exact ⟨_, rfl, ⟨hpc.trans helr, hx0'.trans hspsr, hx8.trans (congrFun hregs 8),
    hspsr'.trans hspsr, hsp'.trans hsp⟩, rfl, rfl⟩

/-- The answers of the handler. -/
theorem handleSyncException_putc (hk : k.Calls) {x0 : UInt64} :
    handleSyncException k.esr x0 1 c = (some 0, svcMessage ++ [x0.toUInt8]) := by
  simp [handleSyncException, hk.svc, svcMessage]

theorem handleSyncException_getc (hk : k.Calls) {x0 : UInt64} :
    handleSyncException k.esr x0 2 c = (some c.toUInt64, svcMessage) := by
  simp [handleSyncException, hk.svc, svcMessage]

/-! ## The loop -/

theorem userAddress_toNat {i : Nat} (hi : i < 10) : (userAddress i).toNat = 0x80000000 + 4 * i := by
  rw [userAddress, UInt64.toNat_ofNat']
  omega

theorem userAddress_succ (i : Nat) : userAddress i + 4 = userAddress (i + 1) := by
  have hsum : 0x80000000 + 4 * (i + 1) = 0x80000000 + 4 * i + 4 := by omega
  rw [userAddress, userAddress, hsum, UInt64.ofNat_add (0x80000000 + 4 * i) 4]
  rfl

theorem fetch_userAddress {i : Nat} (hi : i < 10) : fetch (userAddress i) = userShell[i]? := by
  have hindex : (0x80000000 + 4 * i - 0x80000000) / 4 = i := by omega
  rw [fetch, userAddress_toNat hi, if_neg (by omega), hindex]

/-- An instruction that is no `svc`. -/
theorem step_movImm (k : UserKernel) (input : Nat → UInt8) {i : Nat} {t : Fin 31}
    {v : UInt64} (hi : i < 10) (hinstr : userShell[i]? = some (.movImm t v))
    (hpc : u.cpu.pc = userAddress i) :
    u.step k input = some (u.next (u.cpu.setX t v)) ∧
      (u.next (u.cpu.setX t v)).cpu.pc = userAddress (i + 1) := by
  refine ⟨?_, ?_⟩
  · rw [UserMode.step, hpc, fetch_userAddress hi, hinstr]
  · show u.cpu.pc + 4 = _
    rw [hpc, userAddress_succ]

theorem step_mov (k : UserKernel) (input : Nat → UInt8) {i : Nat} {t n : Fin 31} (hi : i < 10)
    (hinstr : userShell[i]? = some (.mov t n)) (hpc : u.cpu.pc = userAddress i) :
    u.step k input = some (u.next (u.cpu.setX t (u.cpu.x n))) ∧
      (u.next (u.cpu.setX t (u.cpu.x n))).cpu.pc = userAddress (i + 1) := by
  refine ⟨?_, ?_⟩
  · rw [UserMode.step, hpc, fetch_userAddress hi, hinstr]
  · show u.cpu.pc + 4 = _
    rw [hpc, userAddress_succ]

/-- An `svc`: the character is the next one that was typed. -/
theorem step_svc {i : Nat} {r : UInt64} {printed : List UInt8} (hk : k.Calls) (hi : i < 10)
    (hinstr : userShell[i]? = some .svc) (hpc : u.cpu.pc = userAddress i)
    (hcall : handleSyncException k.esr (u.cpu.x 0) (u.cpu.x 8)
    (input u.reads) = (some r, printed)) :
    ∃ v, u.step k input = some v ∧ v.cpu.pc = userAddress (i + 1) ∧ AfterCall u v ∧
      v.out = u.out ++ printed ∧ v.reads = if u.cpu.x 8 = 2 then u.reads + 1 else u.reads := by
  obtain ⟨v, hv, hafter, hout, hreads⟩ := svc_spec hk hcall
  refine ⟨v, ?_, ?_, hafter, hout, hreads⟩
  · rw [UserMode.step, hpc, fetch_userAddress hi, hinstr]
    exact hv
  · rw [hafter.pc, hpc, userAddress_succ]

/-- **One turn of the loop** takes a character and puts out the saved status. -/
theorem userShell_turn (hk : k.Calls) (input : Nat → UInt8) (hpc : u.cpu.pc = userAddress 3) :
    ∃ v, u.steps k input 7 = some v ∧ v.cpu.pc = userAddress 3 ∧ v.pstate = u.pstate ∧
      v.cpu.sp = u.cpu.sp ∧ v.reads = u.reads + 1 ∧
      v.out = u.out ++ (svcMessage ++ svcMessage ++ [u.pstate.toUInt8]) := by
  -- the character is asked for, and `x0` is the status
  obtain ⟨hstep₁, hpc₁⟩ := step_movImm k input (t := 8) (v := 2) (show 3 < 10 by omega) rfl hpc
  obtain ⟨u₂, hstep₂, hpc₂, hafter₂, hout₂, hreads₂⟩ :=
    step_svc hk (by omega) rfl hpc₁ (handleSyncException_getc hk (c := input u.reads))
  -- it goes through `x1` and back
  obtain ⟨hstep₃, hpc₃⟩ := step_mov k input (t := 1) (n := 0) (by omega) rfl hpc₂
  obtain ⟨hstep₄, hpc₄⟩ := step_mov k input (t := 0) (n := 1) (by omega) rfl hpc₃
  obtain ⟨hstep₅, hpc₅⟩ := step_movImm k input (t := 8) (v := 1) (by omega) rfl hpc₄
  generalize hu₅ : (((u₂.next (u₂.cpu.setX 1 (u₂.cpu.x 0))).next _).next _) = u₅ at hstep₅ hpc₅
  have hx0 : u₅.cpu.x 0 = u.pstate := by
    rw [← hu₅]
    simp [UserMode.next, El1.setX, hafter₂.x0]
  have hx8 : u₅.cpu.x 8 = 1 := by
    rw [← hu₅]
    simp [UserMode.next, El1.setX]
  have hrest : u₅.pstate = u₂.pstate ∧ u₅.cpu.sp = u₂.cpu.sp ∧ u₅.reads = u₂.reads ∧
      u₅.out = u₂.out := by
    rw [← hu₅]
    exact ⟨rfl, rfl, rfl, rfl⟩
  obtain ⟨hpstate₅, hsp₅, hreads₅, hout₅⟩ := hrest
  -- and is put out
  have hcall : handleSyncException k.esr (u₅.cpu.x 0) (u₅.cpu.x 8) (input u₅.reads) =
      (some 0, svcMessage ++ [u.pstate.toUInt8]) := by
    rw [hx0, hx8]
    exact handleSyncException_putc hk
  obtain ⟨u₆, hstep₆, hpc₆, hafter₆, hout₆, hreads₆⟩ := step_svc hk (by omega) rfl hpc₅ hcall
  have hstep₇ : u₆.step k input = some { u₆ with cpu := { u₆.cpu with pc := userAddress 3 } } := by
    rw [UserMode.step, hpc₆, fetch_userAddress (by omega)]
    rfl
  refine ⟨{ u₆ with cpu := { u₆.cpu with pc := userAddress 3 } }, ?_, rfl, ?_, ?_, ?_, ?_⟩
  · simp only [UserMode.steps, hstep₁, hstep₂, hstep₃, hstep₄, hstep₅, hstep₆, hstep₇,
      Option.bind_some]
  · exact hafter₆.pstate.trans (hpstate₅.trans hafter₂.pstate)
  · exact hafter₆.sp.trans (hsp₅.trans hafter₂.sp)
  · show u₆.reads = u.reads + 1
    rw [hreads₆, hx8, if_neg (by decide), hreads₅, hreads₂]
    rfl
  · show u₆.out = _
    rw [hout₆, hout₅, hout₂, List.append_assoc, List.append_assoc]
    rfl

/-- The same number of instructions in two parts. -/
theorem steps_add (m n : Nat) (u : UserMode) :
    u.steps k input (m + n) = (u.steps k input m).bind (UserMode.steps k input n) := by
  induction m generalizing u with
  | zero => rw [Nat.zero_add, UserMode.steps, Option.bind_some]
  | succ m ih =>
    rw [Nat.succ_add, UserMode.steps, UserMode.steps, Option.bind_assoc]
    congr 1
    funext v
    exact ih v

/-- `n` turns. -/
theorem userShell_turns (hk : k.Calls) (input : Nat → UInt8) (n : Nat)
    (hpc : u.cpu.pc = userAddress 3) :
    ∃ v, u.steps k input (7 * n) = some v ∧ v.cpu.pc = userAddress 3 ∧ v.pstate = u.pstate ∧
      v.cpu.sp = u.cpu.sp ∧ v.reads = u.reads + n ∧
      v.out = u.out ++ (List.replicate n
        (svcMessage ++ svcMessage ++ [u.pstate.toUInt8])).flatten := by
  induction n with
  | zero => exact ⟨u, rfl, hpc, rfl, rfl, rfl, by simp⟩
  | succ n ih =>
    obtain ⟨v, hsteps, hpc', hpstate, hsp, hreads, hout⟩ := ih
    obtain ⟨w, hturn, hpc'', hpstate', hsp', hreads', hout'⟩ := userShell_turn hk input hpc'
    refine ⟨w, ?_, hpc'', hpstate'.trans hpstate, hsp'.trans hsp, ?_, ?_⟩
    · rw [Nat.mul_succ, steps_add, hsteps, Option.bind_some, hturn]
    · rw [hreads', hreads, Nat.add_assoc]
    · rw [hout', hout, hpstate, List.replicate_succ', List.flatten_append, List.append_assoc]
      simp

/-- **The user program never echoes what is typed**, as long as no interrupt is taken, though
`enter_usermode` unmasks them.  From its start it is never stuck; it puts out its prompt, and then
in each turn takes one character and puts out a zero byte, whatever the characters are and
whatever the handler returns; each call is announced. -/
theorem userShell_run (hk : k.Calls) (input : Nat → UInt8) (cpu : El1) (n : Nat) :
    ∃ u, (enterUsermode cpu (userAddress 0)).steps k input (3 + 7 * n) = some u ∧ u.reads = n ∧
      u.out = svcMessage ++ [36] ++ (List.replicate n (svcMessage ++ svcMessage ++ [0])).flatten ∧
      u.cpu.pc = userAddress 3 ∧ u.pstate = 0 ∧ u.cpu.sp = cpu.sp := by
  obtain ⟨hstep₁, hpc₁⟩ := step_movImm k input (u := enterUsermode cpu (userAddress 0))
    (t := 0) (v := 36)
    (show 0 < 10 by omega) rfl rfl
  obtain ⟨hstep₂, hpc₂⟩ := step_movImm k input (t := 8) (v := 1) (by omega) rfl hpc₁
  generalize hu₂ : ((enterUsermode cpu (userAddress 0)).next _).next _ = u₂ at hstep₂ hpc₂
  have hx : u₂.cpu.x 0 = 36 ∧ u₂.cpu.x 8 = 1 := by
    rw [← hu₂]
    simp [UserMode.next, El1.setX]
  have hrest : u₂.pstate = 0 ∧ u₂.cpu.sp = cpu.sp ∧ u₂.reads = 0 ∧ u₂.out = [] := by
    rw [← hu₂]
    exact ⟨rfl, rfl, rfl, rfl⟩
  have hcall : handleSyncException k.esr (u₂.cpu.x 0) (u₂.cpu.x 8) (input u₂.reads) =
      (some 0, svcMessage ++ [36]) := by
    rw [hx.1, hx.2]
    exact handleSyncException_putc hk
  obtain ⟨u₃, hstep₃, hpc₃, hafter₃, hout₃, hreads₃⟩ := step_svc hk (by omega) rfl hpc₂ hcall
  obtain ⟨v, hturns, hpc, hpstate, hsp, hreads, hout⟩ := userShell_turns hk input n hpc₃
  have hpstate₃ : u₃.pstate = 0 := hafter₃.pstate.trans hrest.1
  refine ⟨v, ?_, ?_, ?_, hpc, hpstate.trans hpstate₃, ?_⟩
  · rw [steps_add]
    simp only [UserMode.steps, hstep₁, hstep₂, hstep₃, Option.bind_some]
    exact hturns
  · rw [hreads, hreads₃, hx.2, if_neg (by decide), hrest.2.2.1, Nat.zero_add]
  · rw [hout, hout₃, hrest.2.2.2, hpstate₃, List.nil_append]
    rfl
  · rw [hsp, hafter₃.sp, hrest.2.1]

end Calls

/-! ## An interrupt -/

/-- The instructions from an offset of `exception_vector_table` on: `sync_el0_64` is at `0x400`, and
nothing is placed at the offsets behind it. -/
def vectorCode (k : UserKernel) (offset : Nat) : List El1Instr :=
  (syncEl0Code k.top k.ret).drop ((offset - 0x400) / 4)

/-- An interrupt at exception level 0: the processor goes to offset `0x480`. -/
def UserMode.takeIrq (k : UserKernel) (call : El1 → El1) (u : UserMode) : UserMode :=
  let cpu := El1.exec call (vectorCode k 0x480) (u.exceptionEntry u.cpu.pc)
  { u with cpu := cpu, pstate := cpu.spsr }

/-- The program goes on as if there had been no interrupt. -/
structure Undisturbed (u v : UserMode) : Prop where
  x : ∀ i, v.cpu.x i = u.cpu.x i
  sp : v.cpu.sp = u.cpu.sp
  pc : v.cpu.pc = u.cpu.pc
  pstate : v.pstate = u.pstate

/-- What the end of `sync_el0_64` leaves, with the bytes from `b` on taken for a frame: `x8` to
`x30`, the link and the status are loaded, `x0` is the status once more, and the stack pointer
what was loaded for `x21`. -/
structure LoadedFrom (u v : UserMode) (b : Nat) : Prop where
  high : ∀ i : Fin 31, 8 ≤ i.val → v.cpu.x i = u.cpu.mem.dword (b + 8 * i)
  low : ∀ i : Fin 31, 0 < i.val → i.val < 8 → v.cpu.x i = u.cpu.x i
  x0 : v.cpu.x 0 = u.cpu.mem.dword (b + 8 * 32)
  sp : v.cpu.sp = u.cpu.mem.dword (b + 8 * 21)
  pc : v.cpu.pc = u.cpu.mem.dword (b + 8 * 31)
  pstate : v.pstate = u.cpu.mem.dword (b + 8 * 32)

/-- Above the kernel's stack pointer there is, by chance, what the program has in its registers
from `x8` on, its address and its status; and it has the status in `x0`, and the stack pointer in
`x21`. -/
structure FrameMatches (u : UserMode) (b : Nat) : Prop where
  x : ∀ i : Fin 31, 8 ≤ i.val → u.cpu.mem.dword (b + 8 * i) = u.cpu.x i
  sp : u.cpu.x 21 = u.cpu.sp
  pc : u.cpu.mem.dword (b + 8 * 31) = u.cpu.pc
  pstate : u.cpu.mem.dword (b + 8 * 32) = u.pstate
  x0 : u.cpu.x 0 = u.pstate

section Interrupt

variable {u : UserMode} {b : Nat}

theorem loadedFrom_iff {v : UserMode} : LoadedFrom u v b ↔
    (∀ i : Fin 31, 8 ≤ i.val → v.cpu.x i = u.cpu.mem.dword (b + 8 * i)) ∧
    (∀ i : Fin 31, 0 < i.val → i.val < 8 → v.cpu.x i = u.cpu.x i) ∧
    v.cpu.x 0 = u.cpu.mem.dword (b + 8 * 32) ∧ v.cpu.sp = u.cpu.mem.dword (b + 8 * 21) ∧
    v.cpu.pc = u.cpu.mem.dword (b + 8 * 31) ∧ v.pstate = u.cpu.mem.dword (b + 8 * 32) :=
  ⟨fun h => ⟨h.high, h.low, h.x0, h.sp, h.pc, h.pstate⟩,
    fun h => ⟨h.1, h.2.1, h.2.2.1, h.2.2.2.1, h.2.2.2.2.1, h.2.2.2.2.2⟩⟩

/-- Offset `0x480` is the fifth load of the restore. -/
theorem vectorCode_irq (k : UserKernel) : vectorCode k 0x480 = restoreUserCode.drop 4 := rfl

/-- What an interrupt does: its frame is whatever is above the stack pointer. -/
theorem takeIrq_spec (k : UserKernel) (call : El1 → El1) (hb : u.cpu.sp.toNat = b)
    (hle : b + 33 * 8 ≤ 2 ^ 64) :
    LoadedFrom u (u.takeIrq k call) b := by
  rw [loadedFrom_iff, UserMode.takeIrq, vectorCode_irq]
  simp [El1.exec, restoreUserCode, El1.step, El1.setX, El1.address, UserMode.exceptionEntry, hb]
  simp (disch := omega) only [Nat.mod_eq_of_lt, Nat.add_assoc, Nat.reduceAdd]
  refine ⟨fun i hi => ?_, fun i hpos hi => ?_, trivial, trivial, trivial, trivial⟩
  · fin_cases i <;> simp [Function.update] at hi ⊢
  · fin_cases i <;> simp [Function.update] at hpos hi ⊢

/-- **What an interrupt does, and exactly when it is harmless.**  The handler in C is never
called; what is above the kernel's stack pointer is loaded as if a system call had saved it there;
and the program goes on as it was if and only if that is what it has in its registers, its address
and its status, the status is in its `x0` and the stack pointer in its `x21`. -/
theorem takeIrq_iff (k : UserKernel) (u : UserMode) (hle : u.cpu.sp.toNat + 33 * 8 ≤ 2 ^ 64) :
    (∀ call call' : El1 → El1, u.takeIrq k call = u.takeIrq k call') ∧
    (∀ call : El1 → El1, LoadedFrom u (u.takeIrq k call) u.cpu.sp.toNat) ∧
    ∀ call : El1 → El1, Undisturbed u (u.takeIrq k call) ↔ FrameMatches u u.cpu.sp.toNat := by
  refine ⟨fun _ _ => rfl, fun call => takeIrq_spec k call rfl hle, fun call => ?_⟩
  obtain ⟨hhigh, hlow, hx0, hsp, hpc, hpstate⟩ := takeIrq_spec k call (u := u) rfl hle
  constructor
  · intro h
    refine ⟨fun i hi => ?_, ?_, ?_, ?_, ?_⟩
    · rw [← hhigh i hi, h.x]
    · rw [← h.x 21, hhigh 21 (by decide)]
      exact hsp.symm.trans h.sp
    · rw [← hpc, h.pc]
    · rw [← hpstate, h.pstate]
    · rw [← h.x 0, hx0, ← hpstate, h.pstate]
  · intro h
    refine ⟨fun i => ?_, ?_, hpc.trans h.pc, hpstate.trans h.pstate⟩
    · by_cases hi : 8 ≤ i.val
      · rw [hhigh i hi, h.x i hi]
      · by_cases h0 : i = 0
        · rw [h0, hx0, h.pstate, h.x0]
        · exact hlow i (Nat.pos_of_ne_zero fun hval => h0 (Fin.ext hval)) (by omega)
    · exact hsp.trans ((h.x 21 (by decide)).trans h.sp)

end Interrupt

/-! ## A kernel -/

/-- The kernel with the handler as it is. -/
def smallKernel : UserKernel where
  top := smallTop
  ret := 0
  esr := svcEsr
  call := handlerCall svcEsr

theorem smallKernel_calls : smallKernel.Calls where
  svc := by decide
  aapcs := aapcs_handlerCall svcEsr
  top _ _ := rfl

theorem userShell_run_small : ∃ u, (enterUsermode getcState (userAddress 0)).steps smallKernel
    (fun i => UInt8.ofNat (65 + i)) (3 + 7 * 2) = some u ∧ u.reads = 2 ∧
      u.out = svcMessage ++ [36] ++ (svcMessage ++ svcMessage ++ [0] ++
        (svcMessage ++ svcMessage ++ [0])) := by
  obtain ⟨u, hsteps, hreads, hout, -⟩ :=
    userShell_run smallKernel_calls (fun i => UInt8.ofNat (65 + i)) getcState 2
  exact ⟨u, hsteps, hreads, hout⟩

theorem takeIrq_iff_start :
    ¬ Undisturbed (enterUsermode getcState (userAddress 0))
      ((enterUsermode getcState (userAddress 0)).takeIrq smallKernel id) := by
  intro h
  have hframe :=
    ((takeIrq_iff smallKernel (enterUsermode getcState (userAddress 0)) (by decide)).2.2 id).1 h
  exact absurd hframe.pc (by decide)

end OsArm
