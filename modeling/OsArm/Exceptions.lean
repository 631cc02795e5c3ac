import OsArm.Lib.ArmException
import OsArm.CString

/-!
# System calls (`exceptions.S`, `exceptions.c`)

The path from `sync_el0_64` to `eret`: it makes a frame of 32 words below `stack_top`, stores the
registers, the link and the status into it, calls `handle_sync_exception` and loads them again.

* `exec_save`, `exec_restore` — the 33 words that are stored and loaded.
* `stored_sync` — where they are stored: the last one is behind the frame.
* `sync_el0_64_spec` — what the user finds in each register.
* `syscall_not_preserved` — so no system call preserves what it should.
-/

namespace OsArm

/-! ## The code -/

/-- `stack_top`, as the linker script places it: the stack has 64 KiB below it, and the user
program comes after it. -/
structure StackTop where
  addr : UInt64
  low : 0x10000 ≤ addr.toNat
  high : addr.toNat ≤ 0x80000000

/-- `sync_el0_64` up to the `sub sp`: the stack pointer goes to `x21`, and the kernel stack is
used from its top on. -/
def enterCode (top : StackTop) : List El1Instr :=
  [.movFromSp 21,
   .ldrConst 22 top.addr,
   .movToSp 22,
   .subSp (32 * 8)]

/-- The stores. -/
def saveUserCode : List El1Instr :=
  [.stp 0 1 (0 * 8),
   .stp 2 3 (2 * 8),
   .stp 4 5 (4 * 8),
   .stp 6 7 (6 * 8),
   .stp 8 9 (8 * 8),
   .stp 10 11 (10 * 8),
   .stp 12 13 (12 * 8),
   .stp 14 15 (14 * 8),
   .stp 16 17 (16 * 8),
   .stp 18 19 (18 * 8),
   .stp 20 21 (20 * 8),
   .stp 22 23 (22 * 8),
   .stp 24 25 (24 * 8),
   .stp 26 27 (26 * 8),
   .stp 28 29 (28 * 8),
   .str 30 (30 * 8),
   .mrsElr 0,
   .str 0 (31 * 8),
   .mrsSpsr 0,
   .str 0 (32 * 8)]

/-- The call, with the user's `x0` and `x8`, and the store of its result. -/
def callCode (ret : UInt64) : List El1Instr :=
  [.ldr 0 (0 * 8),
   .ldr 1 (8 * 8),
   .bl ret,
   .str 0 (0 * 8)]

/-- The loads. -/
def restoreUserCode : List El1Instr :=
  [.ldp 0 1 (0 * 8),
   .ldp 2 3 (2 * 8),
   .ldp 4 5 (4 * 8),
   .ldp 6 7 (6 * 8),
   .ldp 8 9 (8 * 8),
   .ldp 10 11 (10 * 8),
   .ldp 12 13 (12 * 8),
   .ldp 14 15 (14 * 8),
   .ldp 16 17 (16 * 8),
   .ldp 18 19 (18 * 8),
   .ldp 20 21 (20 * 8),
   .ldp 22 23 (22 * 8),
   .ldp 24 25 (24 * 8),
   .ldp 26 27 (26 * 8),
   .ldp 28 29 (28 * 8),
   .ldr 30 (30 * 8),
   .ldr 0 (31 * 8),
   .msrElr 0,
   .ldr 0 (32 * 8),
   .msrSpsr 0,
   .movToSp 21,
   .eret]

/-- `sync_el0_64`; `ret` is the address behind its `bl`. -/
def syncEl0Code (top : StackTop) (ret : UInt64) : List El1Instr :=
  enterCode top ++ (saveUserCode ++ (callCode ret ++ restoreUserCode))

/-- `handle_sync_exception` with the syndrome `esr`, and `received` coming in from the UART: what
it returns, `none` for the loop on `wfe`, and what it prints. -/
def handleSyncException (esr userX0 userX8 : UInt64) (received : UInt8) :
    Option UInt64 × List UInt8 :=
  let svc := str ['[', 'S', 'V', 'C', ']', '\r', '\n']
  let ec := (esr >>> 26) &&& 0x3F
  if ec = 0x15 ∧ userX8 = 1 then (some 0, svc ++ [userX0.toUInt8])
  else if ec = 0x15 ∧ userX8 = 2 then (some received.toUInt64, svc)
  else (none, svc)

/-! ## What a system call should do -/

section Path

variable (top : StackTop) (ret : UInt64) (call : El1 → El1)

/-- The state at the call of `handle_sync_exception`, just before the `bl`. -/
def beforeHandler (s : El1) : El1 := El1.exec call (enterCode top ++ (saveUserCode ++
  [.ldr 0 (0 * 8), .ldr 1 (8 * 8)])) s

/-- What `handle_sync_exception` leaves behind. -/
def handled (s : El1) : El1 := call ((beforeHandler top call s).setX 30 ret)

/-- **A system call preserves the user's registers** and returns the result in `x0`, and every
store lies in the frame below `stack_top`. -/
structure PreservesUser (s : El1) : Prop where
  result : (El1.exec call (syncEl0Code top ret) s).x 0 = (handled top ret call s).x 0
  others : ∀ i, i ≠ 0 → (El1.exec call (syncEl0Code top ret) s).x i = s.x i
  elr : (El1.exec call (syncEl0Code top ret) s).elr = s.elr
  spsr : (El1.exec call (syncEl0Code top ret) s).spsr = s.spsr
  sp : (El1.exec call (syncEl0Code top ret) s).sp = s.sp
  stores : ∀ a ∈ El1.stored call (syncEl0Code top ret) s,
    top.addr.toNat - 32 * 8 ≤ a ∧ a + 8 ≤ top.addr.toNat

end Path

/-! ## The pieces -/

section Pieces

variable {top : StackTop} {ret : UInt64} {call : El1 → El1} {s : El1} {b : Nat}

/-- The frame. -/
theorem StackTop.sub_toNat (top : StackTop) :
    (top.addr - UInt64.ofNat (32 * 8)).toNat = top.addr.toNat - 32 * 8 := by
  have hlow := top.low
  have hle : UInt64.ofNat (32 * 8) ≤ top.addr := by
    rw [UInt64.le_iff_toNat_le]
    have h256 : (UInt64.ofNat (32 * 8)).toNat = 256 := by rfl
    omega
  rw [UInt64.toNat_sub_of_le _ _ hle]
  rfl

theorem exec_enter : El1.exec call (enterCode top) s =
    { s with
      x := Function.update (Function.update s.x 21 s.sp) 22 top.addr
      sp := top.addr - UInt64.ofNat (32 * 8) } := by
  simp [El1.exec, enterCode, El1.step, El1.setX]

/-- The words that are stored. -/
def userWord (s : El1) (i : Nat) : UInt64 :=
  if h : i < 31 then s.x ⟨i, h⟩ else if i = 31 then s.elr else s.spsr

/-- **The stores** fill 33 words from the stack pointer on. -/
theorem exec_save (hb : s.sp.toNat = b) (hle : b + 33 * 8 ≤ 2 ^ 64) :
    El1.exec call saveUserCode s =
      { s with
        x := Function.update s.x 0 s.spsr
        mem := s.mem.setDwords b (userWord s) 33 } := by
  simp [El1.exec, saveUserCode, El1.step, El1.store, El1.setX, El1.address, hb, ByteMem.setDwords,
    userWord]
  simp (disch := omega) only [Nat.mod_eq_of_lt, Nat.add_assoc, Nat.reduceAdd]

/-- **The loads** read them again; the status goes through `x0` last, and the stack pointer comes
from `x21`. -/
theorem exec_restore (call : El1 → El1) (hb : s.sp.toNat = b) (hle : b + 33 * 8 ≤ 2 ^ 64) :
    (∀ i : Fin 31, i ≠ 0 →
      (El1.exec call restoreUserCode s).x i = s.mem.dword (b + 8 * i)) ∧
    (El1.exec call restoreUserCode s).x 0 = s.mem.dword (b + 8 * 32) ∧
    (El1.exec call restoreUserCode s).elr = s.mem.dword (b + 8 * 31) ∧
    (El1.exec call restoreUserCode s).spsr = s.mem.dword (b + 8 * 32) ∧
    (El1.exec call restoreUserCode s).sp = s.mem.dword (b + 8 * 21) := by
  simp [El1.exec, restoreUserCode, El1.step, El1.setX, El1.address, hb]
  simp (disch := omega) only [Nat.mod_eq_of_lt, Nat.add_assoc, Nat.reduceAdd]
  refine ⟨fun i hi => ?_, trivial, trivial, trivial, trivial⟩
  fin_cases i <;> simp [Function.update] at hi ⊢

/-- The stores of the save, one word after the other. -/
theorem stored_save (hb : s.sp.toNat = b) (hle : b + 33 * 8 ≤ 2 ^ 64) :
    El1.stored call saveUserCode s = (List.range 33).map fun i => b + 8 * i := by
  simp [El1.stored, saveUserCode, El1.storedBy, El1.step, El1.store, El1.setX, El1.address, hb,
    List.range_succ]
  omega

theorem stored_enter : El1.stored call (enterCode top) s = [] := rfl

theorem stored_restore : El1.stored call restoreUserCode s = [] := rfl

theorem stored_call : El1.stored call (callCode ret) s =
    [(call ((El1.exec call [.ldr 0 (0 * 8), .ldr 1 (8 * 8)] s).setX 30 ret)).address (0 * 8)] := rfl

/-- The call, and the store of its result. -/
theorem exec_call : El1.exec call (callCode ret) s =
    (call ((El1.exec call [.ldr 0 (0 * 8), .ldr 1 (8 * 8)] s).setX 30 ret)).store
      ((call ((El1.exec call [.ldr 0 (0 * 8), .ldr 1 (8 * 8)] s).setX 30 ret)).address (0 * 8))
      ((call ((El1.exec call [.ldr 0 (0 * 8), .ldr 1 (8 * 8)] s).setX 30 ret)).x 0) := rfl

end Pieces

/-! ## The whole path -/

section Whole

variable {top : StackTop} {ret : UInt64} {call : El1 → El1} {s : El1}

/-- The state after the stores: the frame holds the user's words, with the two registers that the
entry overwrites. -/
def saved (top : StackTop) (s : El1) : El1 :=
  let x := Function.update (Function.update s.x 21 s.sp) 22 top.addr
  { s with
    x := Function.update x 0 s.spsr
    sp := top.addr - UInt64.ofNat (32 * 8)
    mem := s.mem.setDwords (top.addr.toNat - 32 * 8)
      (userWord { s with x := x, sp := top.addr - UInt64.ofNat (32 * 8) }) 33 }

theorem exec_enter_save : El1.exec call (enterCode top ++ saveUserCode) s = saved top s := by
  have hlow := top.low
  have hhigh := top.high
  rw [El1.exec_append, exec_enter, exec_save top.sub_toNat (by omega)]
  rfl

theorem beforeHandler_eq : beforeHandler top call s =
    El1.exec call [.ldr 0 (0 * 8), .ldr 1 (8 * 8)] (saved top s) := by
  rw [beforeHandler, ← List.append_assoc, El1.exec_append, exec_enter_save]

/-- What the handler finds: the user's `x0` and `x8`, below the frame. -/
theorem beforeHandler_spec (top : StackTop) (call : El1 → El1) (s : El1) :
    (beforeHandler top call s).x 0 = s.x 0 ∧
    (beforeHandler top call s).x 1 = s.x 8 ∧
    (beforeHandler top call s).sp.toNat = top.addr.toNat - 32 * 8 ∧
    (beforeHandler top call s).mem = (saved top s).mem := by
  have hlow := top.low
  have hhigh := top.high
  have haddr : ∀ imm, imm < 2 ^ 32 →
      (saved top s).address imm = top.addr.toNat - 32 * 8 + imm := by
    intro imm himm
    have hsp : (saved top s).sp.toNat = top.addr.toNat - 32 * 8 := top.sub_toNat
    rw [El1.address, hsp, Nat.mod_eq_of_lt (by omega)]
  rw [beforeHandler_eq]
  refine ⟨?_, ?_, top.sub_toNat, rfl⟩
  · have hword : (El1.exec call [.ldr 0 (0 * 8), .ldr 1 (8 * 8)] (saved top s)).x 0 =
        (saved top s).mem.dword ((saved top s).address (0 * 8)) := by
      simp [El1.exec, El1.step, El1.setX]
    rw [hword, haddr _ (by decide)]
    exact (ByteMem.dword_setDwords (i := 0) (by decide)).trans (by simp [userWord])
  · have hword : (El1.exec call [.ldr 0 (0 * 8), .ldr 1 (8 * 8)] (saved top s)).x 1 =
        (saved top s).mem.dword ((saved top s).address (8 * 8)) := by
      simp [El1.exec, El1.step, El1.setX, El1.address]
    rw [hword, haddr _ (by decide)]
    exact (ByteMem.dword_setDwords (i := 8) (by decide)).trans (by simp [userWord])

/-- The whole path: the result goes into the frame, and the frame into the registers. -/
theorem exec_sync : El1.exec call (syncEl0Code top ret) s = El1.exec call restoreUserCode
    ((handled top ret call s).store ((handled top ret call s).address (0 * 8))
      ((handled top ret call s).x 0)) := by
  rw [syncEl0Code, ← List.append_assoc, El1.exec_append, exec_enter_save,
    El1.exec_append, exec_call, handled, beforeHandler_eq]

/-- The handler comes back with the frame where it was. -/
theorem handled_frame (top : StackTop) (ret : UInt64) (s : El1) (h : Aapcs (32 * 8) call) :
    (handled top ret call s).sp.toNat = top.addr.toNat - 32 * 8 ∧
      (handled top ret call s).address (0 * 8) = top.addr.toNat - 32 * 8 := by
  have hlow := top.low
  have hhigh := top.high
  have hsp : (handled top ret call s).sp.toNat = top.addr.toNat - 32 * 8 := by
    have hkeep : (handled top ret call s).sp = (beforeHandler top call s).sp := h.sp _
    rw [hkeep]
    exact (beforeHandler_spec top call s).2.2.1
  refine ⟨hsp, ?_⟩
  rw [El1.address, hsp, Nat.mod_eq_of_lt (by omega)]
  omega

/-- **Where the words go**: 33 words from the start of a frame of 32 on, and the result. -/
theorem stored_sync (h : Aapcs (32 * 8) call) : El1.stored call (syncEl0Code top ret) s =
    ((List.range 33).map fun i => top.addr.toNat - 32 * 8 + 8 * i) ++
      [top.addr.toNat - 32 * 8] := by
  have hlow := top.low
  have hhigh := top.high
  obtain ⟨hsp, haddr⟩ := handled_frame top ret s h
  have hcall : call ((beforeHandler top call s).setX 30 ret) = handled top ret call s := rfl
  rw [syncEl0Code, El1.stored_append, stored_enter, List.nil_append, El1.stored_append, exec_enter,
    stored_save top.sub_toNat (by omega), ← exec_enter, ← El1.exec_append, exec_enter_save,
    El1.stored_append, stored_call, stored_restore, ← beforeHandler_eq, hcall, haddr,
    List.append_nil]

/-- The words of the frame when the registers are loaded: the handler has kept them. -/
theorem dword_handled (h : Aapcs (32 * 8) call) {i : Nat} (hi : i < 32) :
    (handled top ret call s).mem.dword (top.addr.toNat - 32 * 8 + 8 * i) =
      userWord { s with
        x := Function.update (Function.update s.x 21 s.sp) 22 top.addr
        sp := top.addr - UInt64.ofNat (32 * 8) } i := by
  obtain ⟨-, -, hsp, hmem⟩ := beforeHandler_spec top call s
  have hframe : (handled top ret call s).mem.dword (top.addr.toNat - 32 * 8 + 8 * i) =
      (beforeHandler top call s).mem.dword (top.addr.toNat - 32 * 8 + 8 * i) := by
    refine ByteMem.dword_congr fun j hj => h.frame _ _ ?_ ?_
    · show (beforeHandler top call s).sp.toNat ≤ _
      omega
    · show _ < (beforeHandler top call s).sp.toNat + 32 * 8
      omega
  rw [hframe, hmem]
  exact ByteMem.dword_setDwords (by omega)

/-- **What the user finds** after a system call, `x0` holding the status. -/
theorem sync_el0_64_spec (h : Aapcs (32 * 8) call) :
    (∀ i, i ≠ 0 → i ≠ 21 → i ≠ 22 → (El1.exec call (syncEl0Code top ret) s).x i = s.x i) ∧
    (El1.exec call (syncEl0Code top ret) s).x 21 = s.sp ∧
    (El1.exec call (syncEl0Code top ret) s).x 22 = top.addr ∧
    (El1.exec call (syncEl0Code top ret) s).elr = s.elr ∧
    (El1.exec call (syncEl0Code top ret) s).sp = s.sp ∧
    (El1.exec call (syncEl0Code top ret) s).x 0 = (El1.exec call (syncEl0Code top ret) s).spsr ∧
    (El1.exec call (syncEl0Code top ret) s).spsr =
      (handled top ret call s).mem.dword top.addr.toNat := by
  have hlow := top.low
  have hhigh := top.high
  obtain ⟨hsp, haddr⟩ := handled_frame top ret s h
  have hword : ∀ i, 0 < i → i < 32 →
      ((handled top ret call s).mem.setDword (top.addr.toNat - 32 * 8)
        ((handled top ret call s).x 0)).dword (top.addr.toNat - 32 * 8 + 8 * i) =
      userWord { s with
        x := Function.update (Function.update s.x 21 s.sp) 22 top.addr
        sp := top.addr - UInt64.ofNat (32 * 8) } i := by
    intro i hpos hi
    rw [ByteMem.dword_setDword_of_ne (by omega)]
    exact dword_handled h hi
  have hlast : ((handled top ret call s).mem.setDword (top.addr.toNat - 32 * 8)
      ((handled top ret call s).x 0)).dword (top.addr.toNat - 32 * 8 + 8 * 32) =
      (handled top ret call s).mem.dword top.addr.toNat := by
    rw [ByteMem.dword_setDword_of_ne (by omega)]
    congr 1
    omega
  rw [exec_sync, haddr]
  have hsp' : ((handled top ret call s).store (top.addr.toNat - 32 * 8)
      ((handled top ret call s).x 0)).sp.toNat = top.addr.toNat - 32 * 8 := hsp
  obtain ⟨hx, hx0, helr, hspsr, hsp₁⟩ := exec_restore call hsp' (by omega)
  refine ⟨?_, ?_, ?_, ?_, ?_, hx0.trans hspsr.symm, hspsr.trans hlast⟩
  · intro i hi h21 h22
    have hpos : 0 < (i : Nat) := Nat.pos_of_ne_zero fun h0 => hi (Fin.ext h0)
    rw [hx i hi, El1.store, hword i hpos (by omega), userWord, dif_pos i.isLt]
    dsimp only [Fin.eta]
    rw [Function.update_of_ne h22, Function.update_of_ne h21]
  · rw [hx 21 (by decide), El1.store, hword _ (by decide) (by decide)]
    simp [userWord]
  · rw [hx 22 (by decide), El1.store, hword _ (by decide) (by decide)]
    simp [userWord]
  · rw [helr, El1.store, hword _ (by decide) (by decide)]
    simp [userWord]
  · rw [hsp₁, El1.store, hword _ (by decide) (by decide)]
    simp [userWord]

/-- The word behind the frame is the status, until the handler overwrites it. -/
theorem spsr_of_kept (h : Aapcs (32 * 8) call)
    (hkeep : (handled top ret call s).mem.dword top.addr.toNat =
      (beforeHandler top call s).mem.dword top.addr.toNat) :
    (El1.exec call (syncEl0Code top ret) s).spsr = s.spsr := by
  have hlow := top.low
  obtain ⟨-, -, -, hmem⟩ := beforeHandler_spec top call s
  have haddr : top.addr.toNat = top.addr.toNat - 32 * 8 + 8 * 32 := by omega
  rw [(sync_el0_64_spec h).2.2.2.2.2.2, hkeep, hmem, haddr]
  exact (ByteMem.dword_setDwords (by decide)).trans (by simp [userWord])

/-- That word is stored outside the frame. -/
theorem not_preservesUser (h : Aapcs (32 * 8) call) : ¬ PreservesUser top ret call s := by
  intro hall
  have hlow := top.low
  have hmem : top.addr.toNat ∈ El1.stored call (syncEl0Code top ret) s := by
    rw [stored_sync h]
    refine List.mem_append_left _ (List.mem_map.2 ⟨32, by decide, ?_⟩)
    omega
  have hin := (hall.stores _ hmem).2
  omega

/-- **No system call preserves what it should.**  The status is stored behind the frame, and of
what is loaded:

* every register but `x0`, `x21` and `x22` is as at entry, and so are the link and the stack
  pointer;
* `x21` holds the stack pointer and `x22` the top of the stack, for they were overwritten before
  they were saved;
* `x0` holds the status and not the result; the status is as at entry if the handler leaves the
  word behind the frame alone. -/
theorem syscall_not_preserved (top : StackTop) (ret : UInt64) {call : El1 → El1}
    (h : Aapcs (32 * 8) call) (s : El1) :
    ¬ PreservesUser top ret call s ∧
    (∀ i, i ≠ 0 → i ≠ 21 → i ≠ 22 → (El1.exec call (syncEl0Code top ret) s).x i = s.x i) ∧
    (El1.exec call (syncEl0Code top ret) s).elr = s.elr ∧
    (El1.exec call (syncEl0Code top ret) s).sp = s.sp ∧
    (El1.exec call (syncEl0Code top ret) s).x 21 = s.sp ∧
    (El1.exec call (syncEl0Code top ret) s).x 22 = top.addr ∧
    (El1.exec call (syncEl0Code top ret) s).x 0 = (El1.exec call (syncEl0Code top ret) s).spsr ∧
    ((handled top ret call s).mem.dword top.addr.toNat =
        (beforeHandler top call s).mem.dword top.addr.toNat →
      (El1.exec call (syncEl0Code top ret) s).spsr = s.spsr) := by
  obtain ⟨hx, h21, h22, helr, hsp, hx0, -⟩ := sync_el0_64_spec h
  exact ⟨not_preservesUser h, hx, helr, hsp, h21, h22, hx0, spsr_of_kept h⟩

/-! ## A run of the echo loop -/

/-- The handler for `SYS_UART_GETC`, with `received` coming in. -/
def handlerCall (esr : UInt64) (received : UInt8) (s : El1) : El1 :=
  s.setX 0 ((handleSyncException esr (s.x 0) (s.x 1) received).1.getD (s.x 0))

theorem aapcs_handlerCall (esr : UInt64) (received : UInt8) :
    Aapcs (32 * 8) (handlerCall esr received) where
  saved := by
    intro s i hi _
    refine Function.update_of_ne ?_ _ _
    rintro rfl
    exact absurd hi (by decide)
  sp _ := rfl
  frame _ _ _ _ := rfl

theorem handlerCall_mem (esr : UInt64) (received : UInt8) (s : El1) :
    (handlerCall esr received s).mem = s.mem := rfl

/-- The syndrome of an `svc`. -/
def svcEsr : UInt64 := 0x54000000

/-- The stack top of a small kernel. -/
def smallTop : StackTop where
  addr := 0x40120000
  low := by decide
  high := by decide

/-- The user asks for a character. -/
def getcState : El1 where
  x := fun i => if i = 8 then 2 else 0
  sp := 0
  daif := 0
  pc := 0
  mem := fun _ => 0
  elr := 0
  spsr := 0

/-- The character `A` is received, and `x0` holds the status 0. -/
theorem getc_not_preserved :
    (handled smallTop 0 (handlerCall svcEsr 0x41) getcState).x 0 = 0x41 ∧
    (El1.exec (handlerCall svcEsr 0x41) (syncEl0Code smallTop 0) getcState).x 0 = 0 ∧
    ¬ PreservesUser smallTop 0 (handlerCall svcEsr 0x41) getcState := by
  have haapcs := aapcs_handlerCall svcEsr 0x41
  obtain ⟨hx0, hx1, -, -⟩ :=
    beforeHandler_spec smallTop (handlerCall svcEsr 0x41) getcState
  refine ⟨?_, ?_, not_preservesUser haapcs⟩
  · have hret : (handleSyncException svcEsr 0 2 0x41).1 = some 0x41 := by decide
    rw [handled, handlerCall, El1.setX, El1.setX]
    dsimp only
    rw [Function.update_self, Function.update_of_ne (by decide), Function.update_of_ne (by decide),
      hx0, hx1]
    exact congrArg (Option.getD · _) hret
  · have hstatus : (El1.exec (handlerCall svcEsr 0x41) (syncEl0Code smallTop 0)
        getcState).spsr = getcState.spsr :=
      spsr_of_kept haapcs (by rw [handled, handlerCall_mem, El1.setX])
    rw [(sync_el0_64_spec haapcs).2.2.2.2.2.1, hstatus]
    rfl

/-- The same state, by register. -/
theorem syscall_not_preserved_getc :
    (∀ i, i ≠ 0 → i ≠ 21 → i ≠ 22 → (El1.exec (handlerCall svcEsr 0x41)
      (syncEl0Code smallTop 0) getcState).x i = getcState.x i) ∧
    (El1.exec (handlerCall svcEsr 0x41) (syncEl0Code smallTop 0) getcState).x 22 =
      0x40120000 := by
  obtain ⟨-, hx, -, -, -, h22, -⟩ :=
    syscall_not_preserved smallTop 0 (aapcs_handlerCall svcEsr 0x41) getcState
  exact ⟨hx, h22⟩

end Whole

end OsArm
