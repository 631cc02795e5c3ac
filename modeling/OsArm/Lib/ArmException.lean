import OsArm.Lib.Arm

/-!
# AArch64 at exception level 1

Straight-line code of an exception handler: it saves registers relative to the stack pointer,
reads and writes the exception link and the saved status, calls one function and returns with
`eret`.

* `El1` — the machine; `El1Instr.step` — one instruction, the called function being a parameter.
* `El1.exec` — a piece of code; `El1.exec_append` — it runs piece by piece.
* `El1.stored` — the addresses of the words that a piece of code stores; the called function's
  own stores are not among them.
* `Aapcs` — what the procedure call standard promises of the called function.
-/

/-- The machine with `elr_el1` and `spsr_el1`; `sp` is `sp_el1`. -/
@[ext]
structure El1 extends Arm where
  elr : UInt64
  spsr : UInt64

/-- The instructions; loads and stores are relative to `sp`, offsets are in bytes.  `ldrConst`
is the load of a constant, and `ret` in `bl` the address it returns to. -/
inductive El1Instr
  | movFromSp (t : Fin 31)
  | movToSp (t : Fin 31)
  | ldrConst (t : Fin 31) (v : UInt64)
  | subSp (imm : Nat)
  | stp (t u : Fin 31) (imm : Nat)
  | ldp (t u : Fin 31) (imm : Nat)
  | str (t : Fin 31) (imm : Nat)
  | ldr (t : Fin 31) (imm : Nat)
  | mrsElr (t : Fin 31)
  | msrElr (t : Fin 31)
  | mrsSpsr (t : Fin 31)
  | msrSpsr (t : Fin 31)
  | bl (ret : UInt64)
  | eret
  deriving DecidableEq

namespace El1

/-- Write a register. -/
def setX (s : El1) (t : Fin 31) (v : UInt64) : El1 := { s with x := Function.update s.x t v }

/-- The address `[sp, #imm]`. -/
def address (s : El1) (imm : Nat) : Nat := (s.sp.toNat + imm) % 2 ^ 64

/-- Store a 64-bit word. -/
def store (s : El1) (a : Nat) (v : UInt64) : El1 := { s with mem := s.mem.setDword a v }

variable (call : El1 → El1)

/-- One instruction.  `eret` goes to the link address, and takes the interrupt mask out of the
saved status. -/
def step (s : El1) : El1Instr → El1
  | .movFromSp t => s.setX t s.sp
  | .movToSp t => { s with sp := s.x t }
  | .ldrConst t v => s.setX t v
  | .subSp imm => { s with sp := s.sp - UInt64.ofNat imm }
  | .stp t u imm => (s.store (s.address imm) (s.x t)).store (s.address imm + 8) (s.x u)
  | .ldp t u imm =>
    (s.setX t (s.mem.dword (s.address imm))).setX u (s.mem.dword (s.address imm + 8))
  | .str t imm => s.store (s.address imm) (s.x t)
  | .ldr t imm => s.setX t (s.mem.dword (s.address imm))
  | .mrsElr t => s.setX t s.elr
  | .msrElr t => { s with elr := s.x t }
  | .mrsSpsr t => s.setX t s.spsr
  | .msrSpsr t => { s with spsr := s.x t }
  | .bl ret => call (s.setX 30 ret)
  | .eret => { s with pc := s.elr, daif := s.spsr &&& 0x3C0 }

/-- Run code. -/
def exec (is : List El1Instr) (s : El1) : El1 := is.foldl (step call) s

/-- The addresses of the words that an instruction stores. -/
def storedBy (s : El1) : El1Instr → List Nat
  | .stp _ _ imm => [s.address imm, s.address imm + 8]
  | .str _ imm => [s.address imm]
  | _ => []

/-- The addresses of the words that a piece of code stores, in order. -/
def stored : List El1Instr → El1 → List Nat
  | [], _ => []
  | i :: is, s => s.storedBy i ++ stored is (s.step call i)

variable {call} {is js : List El1Instr} {s : El1}

theorem exec_append : exec call (is ++ js) s = exec call js (exec call is s) :=
  List.foldl_append

theorem stored_append :
    stored call (is ++ js) s = stored call is s ++ stored call js (exec call is s) := by
  induction is generalizing s with
  | nil => rfl
  | cons i is ih =>
    rw [List.cons_append, stored, stored, ih, List.append_assoc]
    rfl

end El1

/-- The callee's side of the procedure call standard: it preserves `x19` to `x29` and `sp`, and
the words of a frame of `size` bytes that lies above `sp`. -/
structure Aapcs (size : Nat) (call : El1 → El1) : Prop where
  saved : ∀ s i, 19 ≤ i → i ≤ 29 → (call s).x i = s.x i
  sp : ∀ s, (call s).sp = s.sp
  frame : ∀ s a, s.sp.toNat ≤ a → a < s.sp.toNat + size → (call s).mem a = s.mem a
