import OsArm.Lib.Memory

/-!
# A piece of AArch64

The instructions that straight-line system code is made of: loads and stores of
one and two registers, moves to and from the stack pointer and the interrupt
mask, a forward branch and the return.

* `Arm` — the machine; `Instr.step` — one instruction; `Arm.exec` — a piece of
  code from its first instruction to its `ret`.
* `Arm.exec_append` — code that neither branches nor returns runs piece by piece.
-/

/-- The machine: `x0` to `x30`, `sp`, the interrupt mask `daif`, the program
counter and the memory. -/
@[ext]
structure Arm where
  x : Fin 31 → UInt64
  sp : UInt64
  daif : UInt64
  pc : UInt64
  mem : ByteMem

/-- Registers are written as numerals. -/
instance registersNeZero : NeZero 31 := ⟨by decide⟩

/-- The instructions; a register is its number, an offset is in bytes, and `cbz`
says how many of the instructions after it a taken branch leaves out. -/
inductive Instr
  | stp (t u n : Fin 31) (imm : Nat)
  | ldp (t u n : Fin 31) (imm : Nat)
  | str (t n : Fin 31) (imm : Nat)
  | ldr (t n : Fin 31) (imm : Nat)
  | movFromSp (t : Fin 31)
  | movToSp (t : Fin 31)
  | mrsDaif (t : Fin 31)
  | msrDaif (t : Fin 31)
  | cbz (t : Fin 31) (skip : Nat)
  | ret
  deriving DecidableEq

namespace Arm

/-! ## One instruction -/

/-- Write a register. -/
def setX (s : Arm) (t : Fin 31) (v : UInt64) : Arm := { s with x := Function.update s.x t v }

/-- The address `[xn, #imm]`. -/
def address (s : Arm) (n : Fin 31) (imm : Nat) : Nat := ((s.x n).toNat + imm) % 2 ^ 64

/-- Store a 64-bit word. -/
def store (s : Arm) (a : Nat) (v : UInt64) : Arm := { s with mem := s.mem.setDword a v }

/-- An instruction that goes on to the next one. -/
def step (s : Arm) : Instr → Arm
  | .stp t u n imm => (s.store (s.address n imm) (s.x t)).store (s.address n imm + 8) (s.x u)
  | .ldp t u n imm =>
    (s.setX t (s.mem.dword (s.address n imm))).setX u (s.mem.dword (s.address n imm + 8))
  | .str t n imm => s.store (s.address n imm) (s.x t)
  | .ldr t n imm => s.setX t (s.mem.dword (s.address n imm))
  | .movFromSp t => s.setX t s.sp
  | .movToSp t => { s with sp := s.x t }
  | .mrsDaif t => s.setX t s.daif
  | .msrDaif t => { s with daif := s.x t }
  | .cbz _ _ | .ret => s

/-- Run code; `skip` instructions are still to be left out. -/
def execFrom : Nat → List Instr → Arm → Arm
  | _, [], s => s
  | skip + 1, _ :: is, s => execFrom skip is s
  | 0, .cbz t skip :: is, s => execFrom (if s.x t = 0 then skip else 0) is s
  | 0, .ret :: _, s => { s with pc := s.x 30 }
  | 0, i :: is, s => execFrom 0 is (s.step i)

/-- Run code from its first instruction. -/
def exec (is : List Instr) (s : Arm) : Arm := execFrom 0 is s

/-! ## Straight-line code -/

end Arm

/-- An instruction after which the next one comes. -/
def Instr.Straight : Instr → Prop
  | .cbz _ _ | .ret => False
  | _ => True

namespace Arm

variable {s : Arm} {is js : List Instr}

theorem execFrom_skip (n : Nat) (is : List Instr) (s : Arm) :
    execFrom n is s = exec (is.drop n) s := by
  induction n generalizing is with
  | zero => rfl
  | succ n ih =>
    cases is with
    | nil => rfl
    | cons i is =>
      rw [execFrom, ih]
      rfl

theorem exec_cons {i : Instr} (hi : i.Straight) : exec (i :: is) s = exec is (s.step i) := by
  cases i <;> first | rfl | exact hi.elim

@[simp] theorem exec_ret : exec (.ret :: is) s = { s with pc := s.x 30 } := rfl

theorem exec_cbz {t : Fin 31} {n : Nat} :
    exec (.cbz t n :: is) s = if s.x t = 0 then exec (is.drop n) s else exec is s := by
  rw [exec, execFrom, execFrom_skip]
  split <;> rfl

/-- Code runs piece by piece. -/
theorem exec_append (h : ∀ i ∈ is, i.Straight) : exec (is ++ js) s = exec js (is.foldl step s) := by
  induction is generalizing s with
  | nil => rfl
  | cons i is ih =>
    rw [List.cons_append, exec_cons (h i (by simp)), List.foldl_cons]
    exact ih fun j hj => h j (List.mem_cons_of_mem i hj)

/-! ## Registers -/

@[simp] theorem setX_self (t : Fin 31) (v : UInt64) : (s.setX t v).x t = v :=
  Function.update_self ..

end Arm
