import OsArm.Lib.ArmPaging

/-!
# The translation table (`mmu.c`)

`mmu_init` fills three entries of one table, for the devices, the kernel and the user program, and
turns translation on.

* `mmuInit` — the registers and the table afterwards.
* `rights` — who may do what in each of the three GiB.
* `mmuInit_translate` — every access to every address: `TCR_EL1` asks for pages of 16 KiB, with
  which the entries are no blocks and all accesses fault; with pages of 4 KiB each address stands
  for itself.
-/

namespace OsArm

/-- `L1_DESC(pa_gib, attridx, extra)`, with `AF`, `ATTRIDX(n)`, `BLOCK` and `VALID`. -/
def l1Desc (paGib attridx extra : UInt64) : UInt64 :=
  paGib <<< 30 ||| (1 : UInt64) <<< 10 ||| attridx <<< 2 ||| extra |||
    (0 : UInt64) <<< 1 ||| (1 : UInt64) <<< 0

/-- `UXN`. -/
def uxn : UInt64 := (1 : UInt64) <<< 54

/-- `AP_RW_EL0`. -/
def apRwEl0 : UInt64 := (1 : UInt64) <<< 6

/-- `AP_RW_EL1`. -/
def apRwEl1 : UInt64 := (0 : UInt64) <<< 6

/-- `l1`, which is zero before `mmu_init`. -/
def l1 : Nat → UInt64
  | 0 => l1Desc 0 1 (uxn ||| apRwEl0)
  | 1 => l1Desc 1 0 apRwEl1
  | 2 => l1Desc 2 0 apRwEl0
  | _ => 0

/-- `mmu_init()`. -/
def mmuInit (m : Mmu) : Mmu where
  mair := (0xFF : UInt64) <<< 0 ||| (0x04 : UInt64) <<< 8
  tcr := 0x00000000808519
  sctlr := (m.sctlr ||| (1 : UInt64)) &&& ~~~((1 : UInt64) <<< 28)
  table := l1

/-- Who may do what in which GiB, `wxn` being the bit of `SCTLR_EL1`. -/
def rights (wxn : Bool) : Nat → ExceptionLevel → AccessKind → Bool
  | 0, _, .fetch => false
  | 0, _, _ => true
  | 1, .el0, .fetch => true
  | 1, .el0, _ => false
  | 1, .el1, .fetch => ! wxn
  | 1, .el1, _ => true
  | 2, .el0, .fetch => ! wxn
  | 2, .el1, .fetch => false
  | 2, _, _ => true
  | _, _, _ => false

section Tables

variable {m : Mmu} {va i : Nat}

/-- `mmu_init` turns the translation on and leaves `WXN` alone. -/
theorem mmuInit_sctlr (m : Mmu) :
    bitOf (mmuInit m).sctlr 0 = true ∧ bitOf (mmuInit m).sctlr 19 = bitOf m.sctlr 19 := by
  simp [mmuInit, bitOf]

theorem l1_zero (hi : 3 ≤ i) : l1 i = 0 := by
  obtain ⟨k, rfl⟩ : ∃ k, i = k + 3 := ⟨i - 3, by omega⟩
  rfl

/-- The three entries are blocks in the GiB of their index, in use, with the rights of `rights`. -/
theorem l1_block (wxn : Bool) (hi : i < 3) :
    bitOf (l1 i) 0 = true ∧ bitOf (l1 i) 10 = true ∧
      (l1 i).toNat % 2 ^ 48 / 2 ^ 30 = i ∧
        (mmuInit m).attr (l1 i) = (if i = 0 then 0x04 else 0xFF) ∧
      ∀ el kind, mayAccess wxn (l1 i) el kind = rights wxn i el kind := by
  have hattr : ∀ entry, (mmuInit m).attr entry = 0x4FF / 256 ^ (entry.toNat / 4 % 8) % 256 :=
    fun _ => rfl
  rw [hattr]
  obtain rfl | rfl | rfl : i = 0 ∨ i = 1 ∨ i = 2 := by omega
  all_goals
    refine ⟨by decide, by decide, by decide, by decide, fun el kind => ?_⟩
    cases wxn <;> cases el <;> cases kind <;> decide

/-- No entry refers to a further table. -/
theorem l1_flat (i : Nat) : bitOf (l1 i) 1 = false := by
  by_cases hi : 3 ≤ i
  · rw [l1_zero hi]
    decide
  · obtain rfl | rfl | rfl : i = 0 ∨ i = 1 ∨ i = 2 := by omega
    all_goals decide

/-- What `TCR_EL1` says: addresses of 39 bits in this table, and none in the other one. -/
theorem mmuInit_tcr (m : Mmu) : 64 - (mmuInit m).tcr.toNat % 64 = 39 ∧
    bitOf (mmuInit m).tcr 7 = false ∧ bitOf (mmuInit m).tcr 23 = true := by
  rw [show (mmuInit m).tcr = 0x808519 from rfl]
  decide

/-- What is not in the table faults, for either size of page. -/
theorem lookup_high (g : Granule) (hva : ¬ va < 2 ^ 39) :
    lookup g (mmuInit m).tcr (mmuInit m).table va = .fault := by
  obtain ⟨hbits, -, hepd⟩ := mmuInit_tcr m
  simp only [lookup, hbits, if_neg hva, hepd, if_true]

/-- With pages of 16 KiB, the look-up starts where there are no blocks, and nothing in `l1` is a
table. -/
theorem lookup_kb16 : lookup .kb16 (mmuInit m).tcr (mmuInit m).table va = .fault := by
  by_cases hva : va < 2 ^ 39
  · obtain ⟨hbits, -, -⟩ := mmuInit_tcr m
    have hlevel : Granule.startLevel .kb16 39 = 1 := by decide
    have hblocks : Granule.hasBlocks .kb16 1 = false := by decide
    simp only [lookup, hbits, if_pos hva, hlevel, hblocks]
    have htable : (mmuInit m).table = l1 := rfl
    simp [htable, l1_flat]
  · exact lookup_high .kb16 hva

/-- With pages of 4 KiB, the look-up starts where a block is 1 GiB. -/
theorem lookup_kb4 : lookup .kb4 (mmuInit m).tcr (mmuInit m).table va =
    if va < 3 * 2 ^ 30 then .block va (l1 (va / 2 ^ 30)) else .fault := by
  by_cases hva : va < 2 ^ 39
  · obtain ⟨hbits, hepd, -⟩ := mmuInit_tcr m
    have hlevel : Granule.startLevel .kb4 39 = 1 := by decide
    have hblocks : Granule.hasBlocks .kb4 1 = true := by decide
    have hshift : Granule.shift .kb4 1 = 30 := by decide
    have htable : (mmuInit m).table = l1 := rfl
    simp only [lookup, hbits, if_pos hva, hlevel, hblocks, hshift, hepd, htable, if_true]
    by_cases hlow : va < 3 * 2 ^ 30
    · obtain ⟨hvalid, -, hpa, -⟩ := l1_block (m := m) true (i := va / 2 ^ 30) (by omega)
      rw [if_neg (by rw [hvalid]; decide), if_neg (by rw [l1_flat]; decide), if_pos hlow, hpa]
      congr 1
      omega
    · rw [if_pos (.inr (by rw [l1_zero (by omega)]; decide)), if_neg hlow]
  · rw [lookup_high .kb4 hva, if_neg (by omega)]

end Tables

/-- **Every access after `mmu_init`.** -/
theorem mmuInit_translate (m : Mmu) (el : ExceptionLevel) (kind : AccessKind) (va : Nat) :
    Granule.ofTg0 ((mmuInit m).tcr.toNat / 2 ^ 14 % 4) = some .kb16 ∧
    (mmuInit m).translate .kb16 el kind va = .fault ∧
    (mmuInit m).translate .kb4 el kind va =
      if va < 3 * 2 ^ 30 ∧ rights (bitOf m.sctlr 19) (va / 2 ^ 30) el kind then
        .ok va (if va < 2 ^ 30 then 0x04 else 0xFF)
      else .fault := by
  obtain ⟨hon, hwxn⟩ := mmuInit_sctlr m
  refine ⟨by rw [show (mmuInit m).tcr = 0x808519 from rfl]; decide,
    Mmu.translate_fault hon lookup_kb16, ?_⟩
  by_cases hlow : va < 3 * 2 ^ 30
  · obtain ⟨-, haf, -, hattr, hrights⟩ :=
      l1_block (m := m) (bitOf m.sctlr 19) (i := va / 2 ^ 30) (by omega)
    have hfirst : va / 2 ^ 30 = 0 ↔ va < 2 ^ 30 := by omega
    rw [Mmu.translate_block hon (lookup_kb4.trans (if_pos hlow)), hwxn]
    simp only [haf, hrights, hattr, hfirst, Bool.true_and, hlow, true_and]
  · rw [Mmu.translate_fault hon (lookup_kb4.trans (if_neg hlow)), if_neg (fun h => hlow h.1)]

end OsArm
