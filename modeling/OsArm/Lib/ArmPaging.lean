import Mathlib

/-!
# Address translation on AArch64

The first look-up of stage 1 at exception levels 0 and 1, with `TTBR0_EL1`.

* `Granule` — the page sizes of 4 and 16 KiB, and what they make of an address: the level a look-up
  starts at, the bits that index its table, the levels that may have blocks.
* `lookup` — the entry that is found, and the block it describes.
* `mayAccess` — the access permissions of a block.
* `Mmu.translate` — both together; `elsewhere` stands for what goes on in another table.
-/

/-- The bit `i` of a register or an entry. -/
def bitOf (v : UInt64) (i : Nat) : Bool := v.toBitVec.getLsbD i

/-- The size of a page, of those that there are the ones of 4 and 16 KiB. -/
inductive Granule
  | kb4
  | kb16
  deriving DecidableEq

namespace Granule

/-- What `TCR_EL1.TG0` asks for. -/
def ofTg0 : Nat → Option Granule
  | 0 => some kb4
  | 2 => some kb16
  | _ => none

/-- The bits of an address inside a page. -/
def pageBits : Granule → Nat
  | kb4 => 12
  | kb16 => 14

/-- The bits that index a table, which is as large as a page. -/
def indexBits (g : Granule) : Nat := g.pageBits - 3

/-- The lowest bit of the index at a level; the last level is 3. -/
def shift (g : Granule) (level : Nat) : Nat := g.pageBits + g.indexBits * (3 - level)

/-- Where the look-up of an address of `bits` bits starts. -/
def startLevel (g : Granule) (bits : Nat) : Nat := 3 - (bits - g.pageBits - 1) / g.indexBits

/-- Whether an entry of the level may be a block. -/
def hasBlocks : Granule → Nat → Bool
  | kb4, 1 | kb4, 2 | kb16, 2 => true
  | _, _ => false

end Granule

/-- What a look-up finds. -/
inductive Lookup
  | fault
  | block (pa : Nat) (entry : UInt64)
  | elsewhere

/-- The first look-up; `table` has the entries behind `TTBR0_EL1`.  The addresses that are not below
`TCR_EL1.T0SZ` belong to `TTBR1_EL1`, if that is in use. -/
def lookup (g : Granule) (tcr : UInt64) (table : Nat → UInt64) (va : Nat) : Lookup :=
  let bits := 64 - tcr.toNat % 64
  if va < 2 ^ bits then
    let level := g.startLevel bits
    let entry := table (va / 2 ^ g.shift level)
    if bitOf tcr 7 ∨ ¬ bitOf entry 0 then .fault
    else if bitOf entry 1 then .elsewhere
    else if g.hasBlocks level then
      .block
        (entry.toNat % 2 ^ 48 / 2 ^ g.shift level * 2 ^ g.shift level + va % 2 ^ g.shift level)
        entry
    else .fault
  else if bitOf tcr 23 then .fault
  else .elsewhere

inductive ExceptionLevel
  | el0
  | el1
  deriving DecidableEq

inductive AccessKind
  | read
  | write
  | fetch
  deriving DecidableEq

/-- Whether the block may be written at the level. -/
def mayWrite (entry : UInt64) : ExceptionLevel → Bool
  | .el0 => bitOf entry 6 && ! bitOf entry 7
  | .el1 => ! bitOf entry 7

/-- The permissions of a block: `AP`, `PXN`, `UXN`, and `SCTLR_EL1.WXN`.  What level 0 may write,
level 1 does not execute. -/
def mayAccess (wxn : Bool) (entry : UInt64) : ExceptionLevel → AccessKind → Bool
  | .el0, .read => bitOf entry 6
  | .el1, .read => true
  | el, .write => mayWrite entry el
  | .el0, .fetch => ! bitOf entry 54 && ! (wxn && mayWrite entry .el0)
  | .el1, .fetch => ! bitOf entry 53 && ! mayWrite entry .el0 && ! (wxn && mayWrite entry .el1)

/-- The registers, and the table that `TTBR0_EL1` points to. -/
structure Mmu where
  mair : UInt64
  tcr : UInt64
  sctlr : UInt64
  table : Nat → UInt64

/-- The outcome of an access: the physical address with the memory attributes. -/
inductive Outcome
  | fault
  | ok (pa attr : Nat)
  | elsewhere
  deriving DecidableEq

namespace Mmu

/-- The byte of `MAIR_EL1` that an entry selects. -/
def attr (m : Mmu) (entry : UInt64) : Nat := m.mair.toNat / 256 ^ (entry.toNat / 4 % 8) % 256

/-- **An access**, `g` being the granule that the processor uses. -/
def translate (g : Granule) (m : Mmu) (el : ExceptionLevel) (kind : AccessKind)
    (va : Nat) : Outcome :=
  if bitOf m.sctlr 0 then
    match lookup g m.tcr m.table va with
    | .fault => .fault
    | .elsewhere => .elsewhere
    | .block pa entry =>
      if bitOf entry 10 && mayAccess (bitOf m.sctlr 19) entry el kind then .ok pa
        (m.attr entry) else .fault
  else .ok va 0

section Translate

variable {g : Granule} {m : Mmu} {el : ExceptionLevel} {kind : AccessKind}
  {va pa : Nat} {entry : UInt64}

theorem translate_fault (hon : bitOf m.sctlr 0) (hlookup : lookup g m.tcr m.table va = .fault) :
    m.translate g el kind va = .fault := by
  rw [translate, if_pos hon, hlookup]

theorem translate_block (hon : bitOf m.sctlr 0)
    (hlookup : lookup g m.tcr m.table va = .block pa entry) :
    m.translate g el kind va =
      if bitOf entry 10 && mayAccess (bitOf m.sctlr 19) entry el kind then .ok pa
        (m.attr entry) else .fault := by
  rw [translate, if_pos hon, hlookup]

end Translate

end Mmu
